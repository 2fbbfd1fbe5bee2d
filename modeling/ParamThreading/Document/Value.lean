import ParamThreading.Document.Double
import ParamThreading.Text.Cut
import ParamThreading.Text.Numeral
import ParamThreading.Text.Quoted

/-!
# The values of documents

Values of documents, whatever they are written in, and their loose conversion.

* `Value`  the values;
* `Numeral.double?`  numbers with a point or an exponent from their usual spellings;
* `Value.toBool`, `Value.toText`  a truth value or a text, also from values of other kinds;
* `Value.toList`  the items of a list.
-/

namespace ParamThreading

inductive Value where
  | null
  | bool (b : Bool)
  | int (n : Int)
  | double (x : Double)
  | text (s : String)
  | list (vs : List Value)
  | table (fields : List (String × Value))
deriving Inhabited

namespace Numeral

/-- A number with an optional sign, point and exponent; a digit stands before or after the point. -/
def decimal? (cs : List Char) : Option Double :=
  let (negative, body) := signed cs
  let whole := body.takeWhile Char.isDigit
  let rest := body.drop whole.length
  let (fraction, rest) := match rest with
    | '.' :: more => (more.takeWhile Char.isDigit, more.dropWhile Char.isDigit)
    | _ => ([], rest)
  let exponent := match rest with
    | [] => some 0
    | e :: more =>
      if e = 'e' || e = 'E' then
        let (down, body) := signed more
        (digits? 10 body).map fun n => if down then -(n : Int) else n
      else none
  exponent.bind fun e =>
    (digits? 10 (whole ++ fraction)).map fun n =>
      Double.ofDecimal negative n (e - fraction.length)

/-- A number of double precision, also an infinite one or none at all. -/
def double? (cs : List Char) : Option Double :=
  let (negative, body) := signed cs
  let word := String.ofList (lower body)
  if word == "nan" then some .nan
  else if word == "inf" || word == "infinity" then some (.infinite negative)
  else decimal? cs

end Numeral

namespace Value

/-- What a value is called where another kind was wanted. -/
def describe : Value → String
  | null => "unit value"
  | bool b => "boolean `" ++ toString b ++ "`"
  | int n => "64-bit integer `" ++ toString n ++ "`"
  | double x => "floating point `" ++ x.render ++ "`"
  | text s => "string " ++ Quoted.encode s
  | list _ => "sequence"
  | table _ => "map"

/-- A truth value: numbers are true unless zero, and some words stand for truth values. What is none
is described. -/
def toBool : Value → Except String Bool
  | bool b => .ok b
  | int n => .ok (n != 0)
  | double x => .ok (!x.isZero)
  | text s =>
    let word := String.ofList (Numeral.lower s.toList)
    if ["1", "true", "on", "yes"].contains word then .ok true
    else if ["0", "false", "off", "no"].contains word then .ok false
    else .error (text word).describe
  | v => .error v.describe

/-- A text, also of a number or a truth value. What is none is described. -/
def toText : Value → Except String String
  | text s => .ok s
  | bool b => .ok (toString b)
  | int n => .ok (toString n)
  | double x => .ok x.render
  | v => .error v.describe

def toList : Value → Except String (List Value)
  | list vs => .ok vs
  | v => .error v.describe

/-- The fields with a value at a key, in place of the one that was there. -/
def insert (fields : List (String × Value)) (key : String) (v : Value) : List (String × Value) :=
  if fields.any (·.1 == key) then fields.map fun (k, w) => if k == key then (k, v) else (k, w)
  else fields ++ [(key, v)]

def lookup? (fields : List (String × Value)) (key : String) : Option Value :=
  (fields.find? (·.1 == key)).map (·.2)

end Value

end ParamThreading
