import ParamThreading.Diff.Script

/-!
# Compaction of runs

Deletions, then insertions, are shifted up and then down as far as equal items allow, and those that
meet are joined.

* `Diff.shiftUp`, `Diff.shiftDown`  a run shifted between the runs before and after it;
* `Diff.compact`  all runs compacted;
* `Diff.Block`, `Diff.blocks`  runs with neighbouring deletions and insertions joined to
  replacements.
-/

namespace ParamThreading

namespace Diff

namespace Run

/-- Positions moved down, or up, by some items. -/
def later (r : Run) (n : Nat) : Run :=
  { r with old := r.old + n, new := r.new + n }

def earlier (r : Run) (n : Nat) : Run :=
  { r with old := r.old - n, new := r.new - n }

/-- Longer, or shorter, at the end. -/
def longer (r : Run) (n : Nat) : Run :=
  { r with length := r.length + n }

def shorter (r : Run) (n : Nat) : Run :=
  { r with length := r.length - n }

end Run

/-- A run with the runs before it, the nearest one first, and the runs after it. -/
structure Focus where
  before : List Run
  run : Run
  after : List Run
deriving Inhabited

variable {α : Type} [BEq α]

/-- How far an edit can move up into equal items: in the old sequence for a deletion, in the new one
for an insertion. -/
def roomAbove (a b : Array α) (edit equal : Run) : Nat :=
  match edit.kind with
  | .insert => matchingBack b (equal.new + equal.length) equal.length
      b (edit.new + edit.length) edit.length
  | _ => matchingBack a (equal.old + equal.length) equal.length
      a (edit.old + edit.length) edit.length

def roomBelow (a b : Array α) (edit equal : Run) : Nat :=
  match edit.kind with
  | .insert => matching b equal.new equal.length b edit.new edit.length
  | _ => matching a equal.old equal.length a edit.old edit.length

/-- The runs after an edit that moved up by some items through an equal run. -/
def refillBelow (edit equal : Run) (n : Nat) (after : List Run) : List Run :=
  match after with
  | next :: rest =>
    if next.kind = .equal then (next.earlier n).longer n :: rest else fresh :: after
  | [] => [fresh]
where
  fresh : Run :=
    match edit.kind with
    | .insert => ⟨.equal, equal.old + equal.length - n, edit.new + edit.length - n, n⟩
    | _ => ⟨.equal, equal.old + equal.length - n, edit.new - n, equal.length - n⟩

def refillAbove (edit equal : Run) (n : Nat) (before : List Run) : List Run :=
  match before with
  | prev :: rest => if prev.kind = .equal then prev.longer n :: rest else fresh :: before
  | [] => [fresh]
where
  fresh : Run := ⟨.equal, equal.old, edit.new, n⟩

/-- An edit as far up as it can go. -/
def shiftUp (a b : Array α) : Nat → Focus → Focus
  | 0, f => f
  | n + 1, f =>
    match f.before with
    | [] => f
    | prev :: rest =>
      if prev.kind = .equal then
        let room := roomAbove a b f.run prev
        if 0 < room then
          let left := prev.shorter room
          shiftUp a b n
            { before := if left.length = 0 then rest else left :: rest
              run := f.run.earlier room
              after := refillBelow f.run prev room f.after }
        else if prev.length = 0 then shiftUp a b n { f with before := rest }
        else f
      else if prev.kind = f.run.kind then
        shiftUp a b n { f with before := rest, run := prev.longer f.run.length }
      else shiftUp a b n { f with before := rest, after := prev :: f.after }

def shiftDown (a b : Array α) : Nat → Focus → Focus
  | 0, f => f
  | n + 1, f =>
    match f.after with
    | [] => f
    | next :: rest =>
      if next.kind = .equal then
        let room := roomBelow a b f.run next
        if 0 < room then
          let left := (next.later room).shorter room
          shiftDown a b n
            { before := refillAbove f.run next room f.before
              run := f.run.later room
              after := if left.length = 0 then rest else left :: rest }
        else if next.length = 0 then shiftDown a b n { f with after := rest }
        else f
      else if next.kind = f.run.kind then
        shiftDown a b n { f with run := f.run.longer next.length, after := rest }
      else shiftDown a b n { f with before := next :: f.before, after := rest }

/-- Compacts the runs of one kind, with the runs before, the nearest one first. -/
def compactKind (a b : Array α) (kind : RunKind) (fuel : Nat) : Nat → List Run → List Run → List Run
  | 0, before, after => before.reverse ++ after
  | _ + 1, before, [] => before.reverse
  | n + 1, before, r :: after =>
    if r.kind = kind then
      let f := shiftDown a b fuel (shiftUp a b fuel ⟨before, r, after⟩)
      compactKind a b kind fuel n (f.run :: f.before) f.after
    else compactKind a b kind fuel n (r :: before) after

/-- Compacts deletions, then insertions. A shift passes each item and each run at most once. -/
def compact (a b : Array α) (rs : List Run) : List Run :=
  let fuel := 2 * (a.size + b.size + rs.length) + 2
  let deletions := compactKind a b .delete fuel fuel [] rs
  compactKind a b .insert fuel fuel [] deletions

/-- Equal items, or items in the place of others. -/
structure Block where
  equal : Bool
  old : Nat
  oldLength : Nat
  new : Nat
  newLength : Nat
deriving DecidableEq, Repr, Inhabited

def Run.block (r : Run) : Block :=
  match r.kind with
  | .equal => ⟨true, r.old, r.length, r.new, r.length⟩
  | .delete => ⟨false, r.old, r.length, r.new, 0⟩
  | .insert => ⟨false, r.old, 0, r.new, r.length⟩

/-- Two neighbouring blocks as one. The positions of a replacement are those of its deletion and of
its insertion. -/
def Block.join (x y : Block) : Block :=
  { equal := x.equal
    old := if x.oldLength = 0 && !x.equal && 0 < y.oldLength then y.old else x.old
    oldLength := x.oldLength + y.oldLength
    new := if x.newLength = 0 && !x.equal && 0 < y.newLength then y.new else x.new
    newLength := x.newLength + y.newLength }

/-- The blocks of runs: equal neighbours are joined, and so are neighbouring edits. -/
def blocks : List Run → List Block
  | [] => []
  | r :: rs =>
    match blocks rs with
    | [] => [r.block]
    | next :: rest =>
      if r.block.equal == next.equal then r.block.join next :: rest else r.block :: next :: rest

end Diff

end ParamThreading
