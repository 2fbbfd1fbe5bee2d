import ParamThreading.Diff.Compaction
import ParamThreading.Text.Lines

/-!
# Unified differences of texts

Such a difference shows blocks of changed lines with some unchanged lines around them.

* `Diff.linesOf`  the lines of a text with their line breaks;
* `Diff.groups`  blocks that stand close together;
* `Diff.unified`  the lines of the difference of two texts.
-/

namespace ParamThreading

namespace Diff

/-- The lines of a text with their line breaks: a line feed, a carriage return, or one after the
other. -/
def linesOf : List Char → List (List Char)
  | [] => []
  | '\r' :: '\n' :: cs => ['\r', '\n'] :: linesOf cs
  | c :: cs =>
    if c = '\n' || c = '\r' then [c] :: linesOf cs
    else match linesOf cs with
      | [] => [[c]]
      | first :: rest => (c :: first) :: rest

/-- The number of unchanged lines around a change. -/
def context : Nat := 3

namespace Block

/-- The end of equal items, and their beginning. -/
def lastItems (b : Block) (n : Nat) : Block :=
  let k := min n b.oldLength
  ⟨b.equal, b.old + (b.oldLength - k), k, b.new + (b.newLength - k), k⟩

def firstItems (b : Block) (n : Nat) : Block :=
  let k := min n b.oldLength
  ⟨b.equal, b.old, k, b.new, k⟩

end Block

/-- Shortens equal items at the very beginning and at the very end to the context. -/
def trimEnds (bs : List Block) : List Block :=
  let onFirst (f : Block → Block) : List Block → List Block
    | [] => []
    | b :: rest => if b.equal then f b :: rest else b :: rest
  (onFirst (·.firstItems context) (onFirst (·.lastItems context) bs).reverse).reverse

/-- Parts blocks where many items are equal. The blocks of the group that is open come last one
first. -/
def split : List Block → List Block → List (List Block)
  | pending, [] => [pending.reverse]
  | pending, b :: rest =>
    if b.equal && 2 * context < b.oldLength then
      (b.firstItems context :: pending).reverse :: split [b.lastItems context] rest
    else split (b :: pending) rest

def groups (bs : List Block) : List (List Block) :=
  if bs.isEmpty then []
  else
    let parts := split [] (trimEnds bs)
    match parts.getLast? with
    | some [] => parts.dropLast
    | some [b] => if b.equal then parts.dropLast else parts
    | _ => parts

/-- A range of lines by the number of the first one and their count. -/
def showRange (start stop : Nat) : String :=
  let length := stop - start
  if length = 1 then toString (start + 1)
  else if length = 0 then toString start ++ ",0"
  else toString (start + 1) ++ "," ++ toString length

def header (group : List Block) : String :=
  match group.head?, group.getLast? with
  | some first, some last =>
    "@@ -" ++ showRange first.old (last.old + last.oldLength) ++ " +" ++
      showRange first.new (last.new + last.newLength) ++ " @@\n"
  | _, _ => ""

def showLine (mark : Char) (line : List Char) : String :=
  let shown := String.ofList (mark :: line)
  if line.getLast?.any fun c => c = '\n' || c = '\r' then shown
  else shown ++ "\n\\ No newline at end of file\n"

def showLines (mark : Char) (lines : Array (List Char)) (start length : Nat) : String :=
  String.join ((List.range length).map fun t => showLine mark (lines.getD (start + t) []))

def showBlock (a b : Array (List Char)) (x : Block) : String :=
  if x.equal then showLines ' ' a x.old x.oldLength
  else showLines '-' a x.old x.oldLength ++ showLines '+' b x.new x.newLength

/-- The difference of two texts under two names; empty for equal texts. Carriage returns before line
feeds are not shown. -/
def unified (oldName newName old new : String) : String :=
  if old = new then ""
  else
    let a := (linesOf old.toList).toArray
    let b := (linesOf new.toList).toArray
    let parts := groups (blocks (compact a b (script a b)))
    let shown := String.join (parts.map fun group =>
      header group ++ String.join (group.map (showBlock a b)))
    let text :=
      if parts.isEmpty then "" else "--- " ++ oldName ++ "\n+++ " ++ newName ++ "\n" ++ shown
    String.join ((Lines.of text.toList).map fun line => String.ofList line ++ "\n")

end Diff

end ParamThreading
