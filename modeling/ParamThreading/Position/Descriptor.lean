import ParamThreading.Failure
import ParamThreading.Text.Blank

/-!
# Positions as the user writes them

A position is written `file:#start` or `file:#start,#end`.

* `Descriptor.parse`  reads such a text.
-/

namespace ParamThreading

/-- A range of bytes in a named file. -/
structure Descriptor where
  path : Path
  start : Nat
  stop : Nat
deriving DecidableEq, Repr, Inhabited

namespace Descriptor

def decimal (digits : List Char) : Nat :=
  digits.foldl (fun n c => 10 * n + (c.toNat - '0'.toNat)) 0

/-- A number below 2^64, with an optional plus sign. -/
def number? (cs : List Char) : Option Nat :=
  let digits := (Cut.afterStart? ['+'] cs).getD cs
  if !digits.isEmpty && digits.all Char.isDigit && decimal digits < UInt64.size then
    some (decimal digits)
  else none

def offset? (cs : List Char) : Option Nat :=
  (Cut.afterStart? ['#'] (Blank.trim cs)).bind number?

/-- One offset, or two with a comma between. -/
def range? (cs : List Char) : Option (Nat × Nat) :=
  match Cut.cut? ',' cs with
  | some (a, b) => do return (← offset? a, ← offset? b)
  | none => (offset? cs).map fun n => (n, n)

/-- The file is what precedes the last colon. -/
def parse? (s : String) : Option Descriptor := do
  let (file, offsets) ← Cut.cutLast? ':' s.toList
  if file.isEmpty then none
  let (start, stop) ← range? offsets
  if stop < start then none
  return ⟨⟨String.ofList file⟩, start, stop⟩

def parse (s : String) : Except Failure Descriptor :=
  match parse? s with
  | some d => .ok d
  | none => .error (.invalidPosition s)

end Descriptor

end ParamThreading
