import ParamThreading.Diff.Basic

/-!
# Shortest scripts of deletions and insertions

A shortest sequence of deletions and insertions that turns one sequence into another. Parts that
agree at both ends are set aside; of what is left, a search from both ends finds a point that a
shortest script passes, and the parts on either side of it are treated in the same way.

Points are written by their distances from the end where a search began. On the diagonal `k` the
distance in the new sequence is the one in the old less `k`. A front holds the farthest point of
each diagonal.

* `Diff.middle?`  a point on a shortest script;
* `Diff.script`  the runs of a shortest script.
-/

namespace ParamThreading

namespace Diff

variable {α : Type} [BEq α]

/-- The farthest points of the diagonals, counted from an offset. -/
structure Front where
  offset : Nat
  points : Array Nat

namespace Front

def start (bound : Nat) : Front :=
  ⟨bound + 1, Array.replicate (2 * bound + 3) 0⟩

def get (f : Front) (k : Int) : Nat :=
  f.points.getD (f.offset + k).toNat 0

def set (f : Front) (k : Int) (x : Nat) : Front :=
  { f with points := f.points.setIfInBounds (f.offset + k).toNat x }

/-- Where the diagonal `k` is entered with `d` edits. -/
def enter (f : Front) (d : Nat) (k : Int) : Nat :=
  if k = -d || (k != d && f.get (k - 1) < f.get (k + 1)) then f.get (k + 1) else f.get (k - 1) + 1

end Front

/-- The diagonals that `d` edits lead to, from the highest down. -/
def diagonals (d : Nat) : List Int :=
  (List.range (d + 1)).map fun i : Nat => (d : Int) - 2 * (i : Int)

/-- The most edits that a search from one end has to make. -/
def searchBound (n m : Nat) : Nat :=
  (n + m + 1) / 2 + 1

/-- Searches from the beginning with `d` edits; a point where the front meets the other one, or the
new front. -/
def forward (a b : Array α) (s : Span) (d : Nat) (back : Front) :
    List Int → Front → Except (Nat × Nat) Front
  | [], front => .ok front
  | k :: ks, front =>
    let delta : Int := (s.oldLength : Int) - s.newLength
    let x := front.enter d k
    let y := (x - k).toNat
    let run :=
      if x < s.oldLength && y < s.newLength then
        matching a (s.old + x) (s.oldLength - x) b (s.new + y) (s.newLength - y)
      else 0
    let front := front.set k (x + run)
    if delta % 2 != 0 && (k - delta).natAbs + 1 ≤ d &&
        s.oldLength ≤ x + run + back.get (delta - k) then
      .error (x, y)
    else forward a b s d back ks front

def backward (a b : Array α) (s : Span) (d : Nat) (front : Front) :
    List Int → Front → Except (Nat × Nat) Front
  | [], back => .ok back
  | k :: ks, back =>
    let delta : Int := (s.oldLength : Int) - s.newLength
    let x := back.enter d k
    let y := (x - k).toNat
    let run := if x < s.oldLength && y < s.newLength then
        matchingBack a (s.old + s.oldLength - x) (s.oldLength - x)
          b (s.new + s.newLength - y) (s.newLength - y) else 0
    let back := back.set k (x + run)
    if delta % 2 = 0 && (k - delta).natAbs ≤ d && s.oldLength ≤ x + run + front.get (delta - k) then
      .error (s.oldLength - (x + run), s.newLength - (y + run))
    else backward a b s d front ks back

/-- Searches from both ends with `d` edits and more. -/
def search (a b : Array α) (s : Span) : Nat → Nat → Front → Front → Option (Nat × Nat)
  | 0, _, _, _ => none
  | n + 1, d, front, back =>
    match forward a b s d back (diagonals d) front with
    | .error point => some point
    | .ok front =>
      match backward a b s d front (diagonals d) back with
      | .error point => some point
      | .ok back => search a b s n (d + 1) front back

/-- A point on a shortest script, by its distances from the beginning of the parts. -/
def middle? (a b : Array α) (s : Span) : Option (Nat × Nat) :=
  let bound := searchBound s.oldLength s.newLength
  search a b s bound 0 (.start bound) (.start bound)

def equalRun (old new length : Nat) : List Run :=
  if length = 0 then [] else [⟨.equal, old, new, length⟩]

/-- The runs of a shortest script for parts of the sequences. Every step shortens the parts. -/
def runs (a b : Array α) : Nat → Span → List Run
  | 0, _ => []
  | n + 1, s =>
    let head := matching a s.old s.oldLength b s.new s.newLength
    let (i, oldLeft) := (s.old + head, s.oldLength - head)
    let (j, newLeft) := (s.new + head, s.newLength - head)
    let tail := matchingBack a (i + oldLeft) oldLeft b (j + newLeft) newLeft
    let rest : Span := ⟨i, oldLeft - tail, j, newLeft - tail⟩
    let inner :=
      if rest.oldLength = 0 && rest.newLength = 0 then []
      else if rest.newLength = 0 then [⟨.delete, i, j, rest.oldLength⟩]
      else if rest.oldLength = 0 then [⟨.insert, i, j, rest.newLength⟩]
      else
        match middle? a b rest with
        | some (x, y) =>
          runs a b n ⟨i, x, j, y⟩ ++
            runs a b n ⟨i + x, rest.oldLength - x, j + y, rest.newLength - y⟩
        | none => [⟨.delete, i, j, rest.oldLength⟩, ⟨.insert, i, j, rest.newLength⟩]
    equalRun s.old s.new head ++ inner ++
      equalRun (i + rest.oldLength) (j + rest.newLength) tail

def script (a b : Array α) : List Run :=
  runs a b (a.size + b.size + 1) ⟨0, a.size, 0, b.size⟩

end Diff

end ParamThreading
