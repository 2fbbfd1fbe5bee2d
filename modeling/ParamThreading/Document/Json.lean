import ParamThreading.Document.Value

/-!
# Documents written as JSON

* `Document.Json.parse`  the value of a text, or nothing if it is not well formed.
-/

namespace ParamThreading

namespace Document.Json

def isSpace (c : Char) : Bool :=
  c = ' ' || c = '\t' || c = '\n' || c = '\r'

def skip (cs : List Char) : List Char :=
  cs.dropWhile isSpace

def unit? (cs : List Char) : Option (Nat × List Char) :=
  if cs.length < 4 then none
  else (Numeral.digits? 16 (cs.take 4)).map fun n => (n, cs.drop 4)

/-- The character after `\u`, written as one unit or as a pair of surrogates. -/
def escaped? (cs : List Char) : Option (Char × List Char) := do
  let (high, rest) ← unit? cs
  if 0xd800 ≤ high && high < 0xdc00 then
    match rest with
    | '\\' :: 'u' :: more =>
      let (low, rest) ← unit? more
      if 0xdc00 ≤ low && low < 0xe000 then
        some (Char.ofNat (0x10000 + (high - 0xd800) * 0x400 + (low - 0xdc00)), rest)
      else none
    | _ => none
  else if 0xdc00 ≤ high && high < 0xe000 then none
  else some (Char.ofNat high, rest)

/-- The characters of a string up to its closing quote, and what follows. -/
def string? : Nat → List Char → List Char → Option (String × List Char)
  | 0, _, _ => none
  | _ + 1, _, [] => none
  | n + 1, acc, c :: cs =>
    if c = '"' then some (String.ofList acc.reverse, cs)
    else if c = '\\' then
      match cs with
      | [] => none
      | e :: rest =>
        let plain (x : Char) := string? n (x :: acc) rest
        match e with
        | '"' => plain '"'
        | '\\' => plain '\\'
        | '/' => plain '/'
        | 'b' => plain '\x08'
        | 'f' => plain '\x0c'
        | 'n' => plain '\n'
        | 'r' => plain '\r'
        | 't' => plain '\t'
        | 'u' => (escaped? rest).bind fun (x, rest) => string? n (x :: acc) rest
        | _ => none
    else if c.toNat < 0x20 then none
    else string? n (c :: acc) cs

/-- A number that is not whole, or too large to count as whole; it has to be finite. -/
def fractional? (shown : List Char) : Option Value :=
  (Numeral.decimal? shown).bind fun x =>
    match x with
    | .infinite _ => none
    | x => some (.double x)

/-- A number: whole if it has neither point nor exponent and fits into 64 bits with sign. -/
def number? (cs : List Char) : Option (Value × List Char) :=
  let inNumber (c : Char) := c.isDigit || c = '-' || c = '+' || c = '.' || c = 'e' || c = 'E'
  let shown := cs.takeWhile inNumber
  let rest := cs.dropWhile inNumber
  let body := if shown.head? == some '-' then shown.tail else shown
  let whole := body.takeWhile Char.isDigit
  let after := body.drop whole.length
  let fraction := match after with
    | '.' :: more => some (more.takeWhile Char.isDigit)
    | _ => none
  let wellFormed := !whole.isEmpty && (whole.length = 1 || whole.head? != some '0') &&
    fraction.all (!·.isEmpty)
  let negativeZero := shown == ['-', '0']
  if !wellFormed then none
  else
    match (if after.isEmpty && !negativeZero then Numeral.int? shown else none) with
    | some n => some (.int n, rest)
    | none => (fractional? shown).map (·, rest)

def word? (w : String) (v : Value) (cs : List Char) : Option (Value × List Char) :=
  (Cut.afterStart? w.toList cs).map (v, ·)

mutual

def value? : Nat → List Char → Option (Value × List Char)
  | 0, _ => none
  | n + 1, cs =>
    match skip cs with
    | '\x7b' :: rest =>
      match skip rest with
      | '\x7d' :: rest => some (.table [], rest)
      | rest => fields? n [] rest
    | '[' :: rest =>
      match skip rest with
      | ']' :: rest => some (.list [], rest)
      | rest => items? n [] rest
    | '"' :: rest => (string? (rest.length + 1) [] rest).map fun (s, rest) => (.text s, rest)
    | 't' :: rest => word? "rue" (.bool true) rest
    | 'f' :: rest => word? "alse" (.bool false) rest
    | 'n' :: rest => word? "ull" .null rest
    | cs => number? cs

def items? : Nat → List Value → List Char → Option (Value × List Char)
  | 0, _, _ => none
  | n + 1, acc, cs => do
    let (v, rest) ← value? n cs
    match skip rest with
    | ',' :: rest => items? n (acc ++ [v]) rest
    | ']' :: rest => some (.list (acc ++ [v]), rest)
    | _ => none

def fields? : Nat → List (String × Value) → List Char → Option (Value × List Char)
  | 0, _, _ => none
  | n + 1, acc, cs => do
    match skip cs with
    | '"' :: rest =>
      let (key, rest) ← string? (rest.length + 1) [] rest
      match skip rest with
      | ':' :: rest =>
        let (v, rest) ← value? n rest
        let acc := Value.insert acc key v
        match skip rest with
        | ',' :: rest => fields? n acc rest
        | '\x7d' :: rest => some (.table acc, rest)
        | _ => none
      | _ => none
    | _ => none

end

def parse (text : String) : Option Value := do
  let (v, rest) ← value? (2 * text.toList.length + 2) text.toList
  if (skip rest).isEmpty then some v else none

end Document.Json

end ParamThreading
