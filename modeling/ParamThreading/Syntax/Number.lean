/-!
# Number literals

Each recogniser gives the text after the number it finds at the beginning of a text; `longest` picks
the longest number and says which form it has.
-/

namespace ParamThreading

namespace Number

/-- The forms of number literals. -/
inductive Form where
  | int
  | float
  | imaginary
deriving DecidableEq, Repr

def isBinaryDigit (c : Char) : Bool :=
  c == '0' || c == '1'

def isOctalDigit (c : Char) : Bool :=
  '0' ≤ c && c ≤ '7'

def isHexDigit (c : Char) : Bool :=
  c.isDigit || ('a' ≤ c && c ≤ 'f') || ('A' ≤ c && c ≤ 'F')

/-- Digits after a first one, each with at most one underscore before it. -/
def moreDigits (p : Char → Bool) : List Char → List Char
  | c :: rest =>
    if p c then moreDigits p rest
    else match c, rest with
      | '_', d :: rest' => if p d then moreDigits p rest' else c :: rest
      | _, _ => c :: rest
  | [] => []

def digits (p : Char → Bool) : List Char → Option (List Char)
  | c :: rest => if p c then some (moreDigits p rest) else none
  | [] => none

/-- Digits with an optional underscore in front. -/
def paddedDigits (p : Char → Bool) : List Char → Option (List Char)
  | '_' :: rest => digits p rest
  | cs => digits p cs

/-- One character out of two, such as the two cases of a letter. -/
def oneOf (a b : Char) : List Char → Option (List Char)
  | c :: rest => if c == a || c == b then some rest else none
  | [] => none

/-- The mark of an exponent, an optional sign and decimal digits. -/
def exponent (a b : Char) (cs : List Char) : Option (List Char) := do
  let rest ← oneOf a b cs
  digits Char.isDigit ((oneOf '+' '-' rest).getD rest)

/-- Of two results the one that leaves less text. -/
def longer (a b : Option (List Char)) : Option (List Char) :=
  match a, b with
  | some x, some y => if y.length < x.length then some y else some x
  | some x, none => some x
  | none, y => y

def int : List Char → Option (List Char)
  | '0' :: rest =>
    let binary := (oneOf 'b' 'B' rest).bind (paddedDigits isBinaryDigit)
    let octal := paddedDigits isOctalDigit ((oneOf 'o' 'O' rest).getD rest)
    let hex := (oneOf 'x' 'X' rest).bind (paddedDigits isHexDigit)
    longer (some rest) (longer binary (longer octal hex))
  | cs => digits Char.isDigit cs

def hexMantissa (cs : List Char) : Option (List Char) :=
  match cs with
  | '.' :: rest => digits isHexDigit rest
  | cs => do
    let rest ← paddedDigits isHexDigit cs
    match rest with
    | '.' :: rest' => some ((digits isHexDigit rest').getD rest')
    | _ => some rest

def float (cs : List Char) : Option (List Char) :=
  let withExponent (rest : List Char) : List Char := (exponent 'e' 'E' rest).getD rest
  let decimal : Option (List Char) :=
    match cs with
    | '.' :: rest => (digits Char.isDigit rest).map withExponent
    | cs => do
      let rest ← digits Char.isDigit cs
      match rest with
      | '.' :: rest' => some (withExponent ((digits Char.isDigit rest').getD rest'))
      | _ => exponent 'e' 'E' rest
  let hex : Option (List Char) :=
    match cs with
    | '0' :: rest => do
      let rest ← oneOf 'x' 'X' rest
      let rest ← hexMantissa rest
      exponent 'p' 'P' rest
    | _ => none
  longer decimal hex

def imaginary (cs : List Char) : Option (List Char) :=
  let unit (rest : Option (List Char)) : Option (List Char) := rest.bind (oneOf 'i' 'i')
  longer (unit (digits Char.isDigit cs)) (longer (unit (int cs)) (unit (float cs)))

/-- A number that leaves some text of the given one, with its length in characters. -/
def found (cs : List Char) (s : Form) (rest : Option (List Char)) : Option (Form × Nat) :=
  rest.map fun r => (s, cs.length - r.length)

/-- The longer of two numbers, the first one if they are equally long. -/
def better (a b : Option (Form × Nat)) : Option (Form × Nat) :=
  match a, b with
  | some (s, m), some (t, n) => if m < n then some (t, n) else some (s, m)
  | some x, none => some x
  | none, y => y

/-- The longest number at the beginning of a text, with its length in characters. -/
def longest (cs : List Char) : Option (Form × Nat) :=
  match cs with
  | c :: _ =>
    if c.isDigit || c == '.' then
      better (found cs .int (int cs))
        (better (found cs .float (float cs)) (found cs .imaginary (imaginary cs)))
    else none
  | [] => none

end Number

end ParamThreading
