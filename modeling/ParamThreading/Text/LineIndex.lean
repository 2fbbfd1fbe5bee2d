/-!
# Lines and columns of byte offsets

An index holds the offsets of the line breaks of some bytes; lines and columns count from one, and
columns count bytes.

* `LineIndex.ofBytes`, `LineIndex.ofText`  the index of bytes and of a text;
* `LineIndex.search`  the place of an offset among the line breaks, by halving;
* `LineIndex.position`  line and column of an offset, which is cut down to the number of bytes.
-/

namespace ParamThreading

/-- A line and a column, counted from one. -/
structure LineColumn where
  line : Nat
  column : Nat
deriving DecidableEq, Repr, Inhabited

namespace LineColumn

def render (p : LineColumn) : String :=
  toString p.line ++ ":" ++ toString p.column

end LineColumn

/-- The offsets of the line breaks of some bytes, in increasing order, and the number of the bytes.
-/
structure LineIndex where
  breaks : Array Nat
  size : Nat
deriving DecidableEq, Repr, Inhabited

namespace LineIndex

def lineBreak : UInt8 := 0x0A

/-- The offsets of the line breaks among bytes that start at an offset. -/
def breaksFrom : Nat → List UInt8 → List Nat
  | _, [] => []
  | pos, b :: bs =>
    if b = lineBreak then pos :: breaksFrom (pos + 1) bs else breaksFrom (pos + 1) bs

def ofBytes (bytes : ByteArray) : LineIndex :=
  ⟨(breaksFrom 0 bytes.data.toList).toArray, bytes.size⟩

def ofText (text : String) : LineIndex :=
  ofBytes text.toUTF8

/-- How many line breaks come before an offset, if those in front of `lo` do and those from `hi` on
do not: the range between them is halved until it is empty. -/
def search (breaks : Array Nat) (offset lo hi : Nat) : Nat :=
  if lo < hi then
    let mid := lo + (hi - lo) / 2
    if breaks.getD mid 0 < offset then search breaks offset (mid + 1) hi
    else search breaks offset lo mid
  else lo
termination_by hi - lo

/-- The number of line breaks strictly before an offset. -/
def breaksBefore (index : LineIndex) (offset : Nat) : Nat :=
  search index.breaks offset 0 index.breaks.size

/-- Where the line of an offset starts: behind the last line break before it. -/
def lineStart (index : LineIndex) (offset : Nat) : Nat :=
  match index.breaksBefore offset with
  | 0 => 0
  | before + 1 => index.breaks.getD before 0 + 1

/-- Line and column of an offset; an offset past the end counts as the end. -/
def position (index : LineIndex) (offset : Nat) : LineColumn :=
  let offset := min offset index.size
  ⟨index.breaksBefore offset + 1, offset - index.lineStart offset + 1⟩

end LineIndex

end ParamThreading
