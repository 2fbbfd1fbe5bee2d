import ParamThreading.Document.Value

/-!
# Documents written as TOML

* `Document.Toml.value`  a value: a string, number, date, list or inline table;
* `Document.Toml.Tree`  a table under construction, which knows how its parts were opened;
* `Document.Toml.parse`  the table of a text, or where it is not well formed.

A reader gives what it read and the characters that are left, or the characters from a fault on.
-/

namespace ParamThreading

namespace Document.Toml

def isBlank (c : Char) : Bool :=
  c = ' ' || c = '\t'

def skipBlanks (cs : List Char) : List Char :=
  cs.dropWhile isBlank

/-- Whether a character may stand in a comment or a string. -/
def isText (c : Char) : Bool :=
  c = '\t' || (0x20 ≤ c.toNat && c.toNat != 0x7f)

def lineEnd? : List Char → Option (List Char)
  | '\n' :: rest => some rest
  | '\r' :: '\n' :: rest => some rest
  | _ => none

/-- What follows the blanks and the comment at the end of a line. -/
def finishLine (cs : List Char) : Except (List Char) (List Char) :=
  let cs := skipBlanks cs
  let cs := if cs.head? == some '#' then cs.dropWhile isText else cs
  if cs.isEmpty then .ok []
  else match lineEnd? cs with
    | some rest => .ok rest
    | none => .error cs

def skipLines : Nat → List Char → List Char
  | 0, cs => cs
  | n + 1, cs =>
    let cs := skipBlanks cs
    if cs.isEmpty then []
    else match finishLine cs with
      | .ok rest => skipLines n rest
      | .error _ => cs

/-- The character with the code point of some hexadecimal digits, and what follows. -/
def codePoint? (width : Nat) (cs : List Char) : Option (Char × List Char) := do
  if cs.length < width then none
  let n ← Numeral.digits? 16 (cs.take width)
  if h : n.isValidChar then some (Char.ofNatAux n h, cs.drop width) else none

def escaped? : List Char → Option (Char × List Char)
  | 'b' :: rest => some ('\x08', rest)
  | 't' :: rest => some ('\t', rest)
  | 'n' :: rest => some ('\n', rest)
  | 'f' :: rest => some ('\x0c', rest)
  | 'r' :: rest => some ('\r', rest)
  | 'e' :: rest => some ('\x1b', rest)
  | '"' :: rest => some ('"', rest)
  | '\\' :: rest => some ('\\', rest)
  | 'x' :: rest => codePoint? 2 rest
  | 'u' :: rest => codePoint? 4 rest
  | 'U' :: rest => codePoint? 8 rest
  | _ => none

def expect (chars : List Char) (cs : List Char) : Except (List Char) (List Char) :=
  match Cut.afterStart? chars cs with
  | some rest => .ok rest
  | none => .error cs

def basic : Nat → List Char → List Char → Except (List Char) (String × List Char)
  | 0, _, cs => .error cs
  | _ + 1, _, [] => .error []
  | n + 1, acc, c :: cs =>
    if c = '"' then .ok (String.ofList acc.reverse, cs)
    else if c = '\\' then
      match escaped? cs with
      | some (x, rest) => basic n (x :: acc) rest
      | none => .error (c :: cs)
    else if isText c then basic n (c :: acc) cs
    else .error (c :: cs)

/-- The rest of a string that may have several lines. Up to two quotes may stand before the closing
ones. -/
def multiline (literal : Bool) (quote : Char) : Nat → List Char → List Char →
    Except (List Char) (String × List Char)
  | 0, _, cs => .error cs
  | _ + 1, _, [] => .error []
  | n + 1, acc, c :: cs =>
    let quotes := ((c :: cs).takeWhile (· = quote)).length
    if 3 ≤ quotes then
      let kept := min quotes 5 - 3
      .ok (String.ofList (List.replicate kept quote ++ acc).reverse, (c :: cs).drop (kept + 3))
    else if c = '\\' && !literal then
      match lineEnd? (skipBlanks cs), escaped? cs with
      | some rest, _ =>
        multiline literal quote n acc (rest.dropWhile fun c => isBlank c || c = '\n' || c = '\r')
      | none, some (x, rest) => multiline literal quote n (x :: acc) rest
      | none, none => .error (c :: cs)
    else match lineEnd? (c :: cs) with
      | some rest => multiline literal quote n ('\n' :: acc) rest
      | none => if isText c then multiline literal quote n (c :: acc) cs else .error (c :: cs)

/-- Drops a line end at the very beginning. -/
def afterFirstLine (cs : List Char) : List Char :=
  (lineEnd? cs).getD cs

def string : List Char → Except (List Char) (String × List Char)
  | '"' :: '"' :: '"' :: rest => multiline false '"' (rest.length + 1) [] (afterFirstLine rest)
  | '\'' :: '\'' :: '\'' :: rest => multiline true '\'' (rest.length + 1) [] (afterFirstLine rest)
  | '"' :: rest => basic (rest.length + 1) [] rest
  | '\'' :: rest =>
    let inner := rest.takeWhile fun c => c != '\'' && isText c
    match rest.drop inner.length with
    | '\'' :: after => .ok (String.ofList inner, after)
    | after => .error after
  | cs => .error cs

def isBare (c : Char) : Bool :=
  c.isAlphanum || c = '_' || c = '-'

def keyPart (cs : List Char) : Except (List Char) (String × List Char) :=
  match cs with
  | '"' :: rest => basic (rest.length + 1) [] rest
  | '\'' :: _ => string cs
  | _ =>
    let bare := cs.takeWhile isBare
    if bare.isEmpty then .error cs else .ok (String.ofList bare, cs.drop bare.length)

def key : Nat → List Char → Except (List Char) (List String × List Char)
  | 0, cs => .error cs
  | n + 1, cs => do
    let (part, rest) ← keyPart (skipBlanks cs)
    match skipBlanks rest with
    | '.' :: rest =>
      let (parts, rest) ← key n rest
      return (part :: parts, rest)
    | rest => return ([part], rest)

/-- Digits without the underscores, each of which stands between two digits. -/
def withoutUnderscores? (isDigit : Char → Bool) (cs : List Char) : Option (List Char) :=
  let parts := Cut.fields '_' cs
  if parts.all fun p => !p.isEmpty && p.all isDigit then some parts.flatten else none

def integer? (cs : List Char) : Option Int :=
  let based (base : Nat) (body : List Char) :=
    ((withoutUnderscores? Char.isAlphanum body).bind (Numeral.digits? base)).bind fun n =>
      Numeral.bounded n
  match cs with
  | '0' :: 'x' :: body => based 16 body
  | '0' :: 'o' :: body => based 8 body
  | '0' :: 'b' :: body => based 2 body
  | _ =>
    let (negative, body) := Numeral.signed cs
    (withoutUnderscores? Char.isDigit body).bind fun digits =>
      if digits.length > 1 && digits.head? == some '0' then none
      else (Numeral.digits? 10 digits).bind fun n => Numeral.bounded (if negative then -n else n)

def double? (cs : List Char) : Option Double := do
  let (negative, body) := Numeral.signed cs
  if body == "inf".toList then some (.infinite negative)
  else if body == "nan".toList then some .nan
  else
    let inWhole := body.takeWhile fun c => c.isDigit || c = '_'
    let rest := body.drop inWhole.length
    let whole ← withoutUnderscores? Char.isDigit inWhole
    if whole.length > 1 && whole.head? == some '0' then none
    let (inFraction, rest) := match rest with
      | '.' :: rest => (some (rest.takeWhile fun c => c.isDigit || c = '_'),
          rest.dropWhile fun c => c.isDigit || c = '_')
      | rest => (none, rest)
    let fraction ← match inFraction with
      | none => some []
      | some f => (withoutUnderscores? Char.isDigit f).map ('.' :: ·)
    let exponent ← match rest with
      | [] => if inFraction.isNone then none else some []
      | e :: rest =>
        if e = 'e' || e = 'E' then
          let (down, digits) := Numeral.signed rest
          (withoutUnderscores? Char.isDigit digits).map fun ds =>
            'e' :: (if down then '-' :: ds else ds)
        else none
    Numeral.decimal? ((if negative then ['-'] else []) ++ whole ++ fraction ++ exponent)

/-- Whether characters have the shape of a pattern in which a zero stands for a digit. -/
def shaped : List Char → List Char → Bool
  | [], cs => cs.isEmpty
  | _ :: _, [] => false
  | p :: ps, c :: cs => (if p = '0' then c.isDigit else c = p) && shaped ps cs

def isTime (cs : List Char) : Bool :=
  match Cut.cut? '.' cs with
  | some (clock, fraction) =>
    shaped "00:00:00".toList clock && !fraction.isEmpty && fraction.all Char.isDigit
  | none => shaped "00:00:00".toList cs

def isOffsetTime (cs : List Char) : Bool :=
  isTime cs ||
    (match cs.reverse with
      | 'Z' :: rest => isTime rest.reverse
      | 'z' :: rest => isTime rest.reverse
      | _ => false) ||
    (let offset := cs.drop (cs.length - 6)
     (shaped "+00:00".toList offset || shaped "-00:00".toList offset) &&
       isTime (cs.take (cs.length - 6)))

/-- A date, a time or both, as it is written in full. -/
def date? (cs : List Char) : Option String :=
  let day := cs.take 10
  let rest := cs.drop 10
  if isTime cs then some (String.ofList cs)
  else if !shaped "0000-00-00".toList day then none
  else match rest with
    | [] => some (String.ofList day)
    | t :: time =>
      if (t = 'T' || t = 't' || t = ' ') && isOffsetTime time then
        some (String.ofList (day ++ 'T' :: time.map fun c => if c = 'z' then 'Z' else c))
      else none

def scalar? (cs : List Char) : Option Value :=
  if cs == "true".toList then some (.bool true)
  else if cs == "false".toList then some (.bool false)
  else match integer? cs with
    | some n => some (.int n)
    | none =>
      match double? cs with
      | some x => some (.double x)
      | none => (date? cs).map .text

/-- The characters of a scalar. A blank belongs to it only between a date and a time. -/
def scalarExtent (cs : List Char) : List Char :=
  let inScalar (c : Char) := c.isAlphanum || c = '_' || c = '+' || c = '-' || c = '.' || c = ':'
  let first := cs.takeWhile inScalar
  match cs.drop first.length with
  | ' ' :: d :: rest =>
    if shaped "0000-00-00".toList first && d.isDigit then
      first ++ ' ' :: (d :: rest).takeWhile inScalar
    else first
  | _ => first

/-- The fields with a value at a key of several parts; nothing if the key has a value already. -/
def insertAt? : List String → Value → List (String × Value) → Option (List (String × Value))
  | [], _, _ => none
  | [k], v, fields => if (Value.lookup? fields k).isSome then none else some (fields ++ [(k, v)])
  | k :: ks, v, fields =>
    match Value.lookup? fields k with
    | none => (insertAt? ks v []).map fun inner => fields ++ [(k, .table inner)]
    | some (.table inner) =>
      (insertAt? ks v inner).map fun inner => Value.insert fields k (.table inner)
    | some _ => none

def orFault (at_ : List Char) (x : Option α) : Except (List Char) α :=
  match x with
  | some a => .ok a
  | none => .error at_

mutual

def value : Nat → List Char → Except (List Char) (Value × List Char)
  | 0, cs => .error cs
  | n + 1, cs =>
    match cs with
    | '"' :: _ => (string cs).map fun (s, rest) => (.text s, rest)
    | '\'' :: _ => (string cs).map fun (s, rest) => (.text s, rest)
    | '[' :: rest => items n [] rest
    | '\x7b' :: rest =>
      match skipBlanks rest with
      | '\x7d' :: rest => .ok (.table [], rest)
      | rest => fields n [] rest
    | _ =>
      let extent := scalarExtent cs
      (orFault cs (scalar? extent)).map (·, cs.drop extent.length)

def items : Nat → List Value → List Char → Except (List Char) (Value × List Char)
  | 0, _, cs => .error cs
  | n + 1, acc, cs =>
    match skipLines (cs.length + 1) cs with
    | ']' :: rest => .ok (.list acc, rest)
    | cs => do
      let (v, rest) ← value n cs
      match skipLines (rest.length + 1) rest with
      | ',' :: rest => items n (acc ++ [v]) rest
      | ']' :: rest => .ok (.list (acc ++ [v]), rest)
      | rest => .error rest

def fields : Nat → List (String × Value) → List Char → Except (List Char) (Value × List Char)
  | 0, _, cs => .error cs
  | n + 1, acc, cs => do
    let (k, rest) ← key (cs.length + 1) cs
    let rest ← expect ['='] rest
    let (v, rest) ← value n (skipBlanks rest)
    let acc ← orFault (skipBlanks cs) (insertAt? k v acc)
    match skipBlanks rest with
    | ',' :: rest => fields n acc rest
    | '\x7d' :: rest => .ok (.table acc, rest)
    | rest => .error rest

end

/-- How a table came into being. -/
inductive Opening where
  /-- On the way to a table with a header. -/
  | implied
  /-- By its own header. -/
  | header
  /-- On the way of a dotted key. -/
  | dotted
deriving DecidableEq, Repr, Inhabited

/-- A table under construction. -/
inductive Tree where
  | value (v : Value)
  | table (opening : Opening) (fields : List (String × Tree))
  /-- A list of tables, the last of which is open. -/
  | tables (closed : List (List (String × Tree))) (fields : List (String × Tree))
deriving Inhabited

namespace Tree

def lookup? (fields : List (String × Tree)) (key : String) : Option Tree :=
  (fields.find? (·.1 == key)).map (·.2)

def insert (fields : List (String × Tree)) (key : String) (t : Tree) : List (String × Tree) :=
  if fields.any (·.1 == key) then fields.map fun (k, u) => if k == key then (k, t) else (k, u)
  else fields ++ [(key, t)]

/-- Sets a value below an open table by a dotted key. -/
def set? : List String → Value → List (String × Tree) → Option (List (String × Tree))
  | [], _, _ => none
  | [k], v, fields => if (lookup? fields k).isSome then none else some (fields ++ [(k, value v)])
  | k :: ks, v, fields =>
    match lookup? fields k with
    | none => (set? ks v []).map fun inner => fields ++ [(k, table .dotted inner)]
    | some (.table opening inner) =>
      if opening = .header then none
      else (set? ks v inner).map fun inner => insert fields k (table opening inner)
    | some _ => none

def openTable? : List String → List (String × Tree) → Option (List (String × Tree))
  | [], _ => none
  | [k], fields =>
    match lookup? fields k with
    | none => some (fields ++ [(k, table .header [])])
    | some (.table .implied inner) => some (insert fields k (table .header inner))
    | some _ => none
  | k :: ks, fields =>
    match lookup? fields k with
    | none => (openTable? ks []).map fun inner => fields ++ [(k, table .implied inner)]
    | some (.table opening inner) =>
      (openTable? ks inner).map fun inner => insert fields k (table opening inner)
    | some (.tables closed inner) =>
      (openTable? ks inner).map fun inner => insert fields k (tables closed inner)
    | some (.value _) => none

def openNext? : List String → List (String × Tree) → Option (List (String × Tree))
  | [], _ => none
  | [k], fields =>
    match lookup? fields k with
    | none => some (fields ++ [(k, tables [] [])])
    | some (.tables closed inner) => some (insert fields k (tables (closed ++ [inner]) []))
    | some _ => none
  | k :: ks, fields =>
    match lookup? fields k with
    | none => (openNext? ks []).map fun inner => fields ++ [(k, table .implied inner)]
    | some (.table opening inner) =>
      (openNext? ks inner).map fun inner => insert fields k (table opening inner)
    | some (.tables closed inner) =>
      (openNext? ks inner).map fun inner => insert fields k (tables closed inner)
    | some (.value _) => none

/-- Applies a change to the fields of the table that was opened last. -/
def within? (change : List (String × Tree) → Option (List (String × Tree))) :
    List String → List (String × Tree) → Option (List (String × Tree))
  | [], fields => change fields
  | k :: ks, fields =>
    match lookup? fields k with
    | some (.table opening inner) =>
      (within? change ks inner).map fun inner => insert fields k (table opening inner)
    | some (.tables closed inner) =>
      (within? change ks inner).map fun inner => insert fields k (tables closed inner)
    | _ => none

mutual

def finish : Tree → Value
  | value v => v
  | table _ fields => .table (finishFields fields)
  | tables closed fields => .list (finishAll closed ++ [.table (finishFields fields)])

def finishFields : List (String × Tree) → List (String × Value)
  | [] => []
  | (k, t) :: rest => (k, finish t) :: finishFields rest

def finishAll : List (List (String × Tree)) → List Value
  | [] => []
  | fields :: rest => .table (finishFields fields) :: finishAll rest

end

end Tree

/-- Reads the lines of a document. Keys are set in the table that was opened last. -/
def lines : Nat → List String → List (String × Tree) → List Char →
    Except (List Char) (List (String × Tree))
  | 0, _, _, cs => .error cs
  | n + 1, here, fields, cs =>
    match skipLines (cs.length + 1) cs with
    | [] => .ok fields
    | '[' :: '[' :: rest => do
      let (k, after) ← key (rest.length + 1) rest
      let after ← finishLine (← expect [']', ']'] after)
      lines n k (← orFault (skipBlanks rest) (Tree.openNext? k fields)) after
    | '[' :: rest => do
      let (k, after) ← key (rest.length + 1) rest
      let after ← finishLine (← expect [']'] after)
      lines n k (← orFault (skipBlanks rest) (Tree.openTable? k fields)) after
    | cs => do
      let (k, rest) ← key (cs.length + 1) cs
      let rest ← expect ['='] rest
      let (v, rest) ← value (cs.length + 1) (skipBlanks rest)
      let rest ← finishLine rest
      lines n here (← orFault cs (Tree.within? (Tree.set? k v) here fields)) rest

/-- The fields of a text; where it is not well formed, as the number of characters before. -/
def parse (text : String) : Except Nat (List (String × Value)) :=
  let cs := text.toList
  match lines (cs.length + 1) [] [] cs with
  | .ok fields => .ok (Tree.finishFields fields)
  | .error rest => .error (cs.length - rest.length)

end Document.Toml

end ParamThreading
