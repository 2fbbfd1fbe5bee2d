/-!
# Whole numbers as they are written

* `Numeral.digits?`  the number that digits of a base stand for;
* `Numeral.int?`  a number of 64 bits with an optional sign.
-/

namespace ParamThreading

namespace Numeral

/-- The number that digits of a base stand for. -/
def digits? (base : Nat) (cs : List Char) : Option Nat :=
  let value (c : Char) : Option Nat :=
    let d := if c.isDigit then c.toNat - '0'.toNat
      else if 'a' ≤ c && c ≤ 'f' then c.toNat - 'a'.toNat + 10
      else if 'A' ≤ c && c ≤ 'F' then c.toNat - 'A'.toNat + 10
      else base
    if d < base then some d else none
  if cs.isEmpty then none
  else cs.foldl (fun acc c => acc.bind fun n => (value c).map fun d => n * base + d) (some 0)

/-- Splits off a sign. -/
def signed (cs : List Char) : Bool × List Char :=
  match cs with
  | '-' :: rest => (true, rest)
  | '+' :: rest => (false, rest)
  | _ => (false, cs)

/-- A number within the bounds of 64 bits with sign. -/
def bounded (n : Int) : Option Int :=
  if Int64.minValue.toInt ≤ n && n ≤ Int64.maxValue.toInt then some n else none

def int? (cs : List Char) : Option Int :=
  let (negative, body) := signed cs
  (digits? 10 body).bind fun n => bounded (if negative then -n else n)

def lower (cs : List Char) : List Char :=
  cs.map Char.toLower

end Numeral

end ParamThreading
