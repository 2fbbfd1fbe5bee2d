import ParamThreading.Text.Identifier
import ParamThreading.Syntax.Number

/-!
# The tokens of a Go source

Punctuation is cut into single characters, since how far an operator reaches depends on what may
stand at its place; a string is cut into its quotes and pieces.

* `Token`  a token with the bytes it covers and the line break before it;
* `Token.scan`  the tokens of a text, ended by one of class `finish`.
-/

namespace ParamThreading

/-- The classes of tokens. -/
inductive TokenClass where
  /-- An identifier or a keyword. -/
  | word
  | int
  | float
  | imaginary
  | rune
  /-- The quote at either end of a string. -/
  | quote
  /-- A run of plain characters in a double-quoted string. -/
  | piece
  /-- An escape in a double-quoted string. -/
  | escape
  /-- All that stands between two back quotes. -/
  | raw
  /-- One character of punctuation. -/
  | mark
  /-- A place where no token begins. -/
  | stray
  /-- The end of the text. -/
  | finish
deriving DecidableEq, Repr, Inhabited

/-- A token: its class and text, the bytes it covers, and the offset of the first line break between
the token before it and this one. Line breaks in comments do not count. -/
structure Token where
  cls : TokenClass
  text : String
  start : Nat
  stop : Nat
  lineBreak : Option Nat
deriving Repr, Inhabited

namespace Token

/-- The number of bytes that characters take in UTF-8. -/
def width : List Char → Nat
  | [] => 0
  | c :: cs => c.utf8Size + width cs

def make (cls : TokenClass) (lineBreak : Option Nat) (start : Nat) (cs : List Char) : Token :=
  ⟨cls, String.ofList cs, start, start + width cs, lineBreak⟩

def isSpace (c : Char) : Bool :=
  (9 ≤ c.toNat && c.toNat ≤ 13) || c == ' ' || c.toNat == 0xfeff

def isHex (c : Char) : Bool :=
  Number.isHexDigit c

/-- The characters after the end of a block comment, if it ends. -/
def afterBlockComment : List Char → Option (List Char)
  | '*' :: '/' :: rest => some rest
  | _ :: rest => afterBlockComment rest
  | [] => none

/-- The characters after a comment, for a text that begins with one. -/
def afterComment : List Char → Option (List Char)
  | '/' :: '/' :: rest => some (rest.dropWhile (· != '\n'))
  | '/' :: '*' :: rest => afterBlockComment rest
  | _ => none

/-- How many characters after the backslash an escape in a double-quoted string takes. -/
def escapeLength : List Char → Option Nat
  | 'x' :: rest =>
    let n := (rest.takeWhile isHex).length
    if 2 ≤ n then some (n + 1) else none
  | 'u' :: rest => if 4 ≤ (rest.takeWhile isHex).length then some 5 else none
  | 'U' :: rest => if 8 ≤ (rest.takeWhile isHex).length then some 9 else none
  | c :: rest =>
    if c.isDigit then some (1 + (rest.take 2 |>.takeWhile Char.isDigit).length) else some 1
  | [] => none

/-- The pieces of a double-quoted string after its opening quote, and the text after it. A string
that does not end on its line ends in a stray token. -/
def pieces : Nat → Nat → List Char → List Token × List Char
  | 0, pos, _ => ([.make .stray none pos []], [])
  | _ + 1, pos, '"' :: rest => ([.make .quote none pos ['"']], rest)
  | n + 1, pos, '\\' :: rest =>
    match escapeLength rest with
    | some k =>
      let t : Token := .make .escape none pos ('\\' :: rest.take k)
      let (ts, after) := pieces n t.stop (rest.drop k)
      (t :: ts, after)
    | none => ([.make .stray none pos []], [])
  | n + 1, pos, cs =>
    let plain := cs.takeWhile fun c => c != '"' && c != '\n' && c != '\\'
    if plain.isEmpty then ([.make .stray none pos []], [])
    else
      let t : Token := .make .piece none pos plain
      let (ts, after) := pieces n t.stop (cs.drop plain.length)
      (t :: ts, after)

/-- The length of a rune literal, for a text that begins with an apostrophe. -/
def runeLength : List Char → Option Nat
  | '\'' :: '\\' :: 'x' :: a :: b :: '\'' :: _ => if isHex a && isHex b then some 6 else none
  | '\'' :: '\\' :: 'u' :: rest =>
    if (rest.take 4).all isHex && rest[4]? == some '\'' then some 8 else none
  | '\'' :: '\\' :: 'U' :: rest =>
    if (rest.take 8).all isHex && rest[8]? == some '\'' then some 12 else none
  | '\'' :: '\\' :: c :: '\'' :: _ => if "abfnrtv\\'\"".toList.contains c then some 4 else none
  | '\'' :: '\\' :: a :: b :: c :: '\'' :: _ =>
    if [a, b, c].all Number.isOctalDigit then some 6 else none
  | '\'' :: c :: '\'' :: _ => if c != '\'' && c != '\\' then some 3 else none
  | _ => none

/-- The punctuation characters. The character NUL ends a statement like a semicolon. -/
def isMark (c : Char) : Bool :=
  "+-*/%&|^<>=!~()[]\x7b\x7d,;.:\x00".toList.contains c

/-- The tokens that begin a text at an offset, and the text after them. The text begins neither
with white space nor with a comment. -/
def lexeme (lineBreak : Option Nat) (pos : Nat) (cs : List Char) : List Token × List Char :=
  let take (cls : TokenClass) (n : Nat) : List Token × List Char :=
    ([.make cls lineBreak pos (cs.take n)], cs.drop n)
  match cs with
  | [] => ([], [])
  | c :: rest =>
    if Identifier.isStart c then take .word (1 + (rest.takeWhile Identifier.isContinue).length)
    else match Number.longest cs with
    | some (.int, n) => take .int n
    | some (.float, n) => take .float n
    | some (.imaginary, n) => take .imaginary n
    | none =>
      if c == '"' then
        let (ts, after) := pieces (rest.length + 1) (pos + 1) rest
        (.make .quote lineBreak pos ['"'] :: ts, after)
      else if c == '`' then
        let body := rest.takeWhile (· != '`')
        match rest.drop body.length with
        | _ :: after =>
          let raw : Token := .make .raw none (pos + 1) body
          ([.make .quote lineBreak pos ['`'], raw, .make .quote none raw.stop ['`']], after)
        | [] => ([.make .stray lineBreak pos []], [])
      else if c == '\'' then
        match runeLength cs with
        | some n => take .rune n
        | none => ([.make .stray lineBreak pos []], [])
      else if isMark c then take .mark 1
      else ([.make .stray lineBreak pos []], [])

/-- The tokens of a text that starts at an offset, given the first line break on the way to it. -/
def scanFrom : Nat → Option Nat → Nat → List Char → List Token
  | 0, lineBreak, pos, _ => [.make .finish lineBreak pos []]
  | _ + 1, lineBreak, pos, [] => [.make .finish lineBreak pos []]
  | n + 1, lineBreak, pos, c :: rest =>
    if isSpace c then
      scanFrom n (if c == '\n' then lineBreak.or (some pos) else lineBreak) (pos + c.utf8Size) rest
    else match afterComment (c :: rest) with
    | some after =>
      let skipped := (c :: rest).take (rest.length + 1 - after.length)
      scanFrom n lineBreak (pos + width skipped) after
    | none =>
      let (ts, after) := lexeme lineBreak pos (c :: rest)
      ts ++ scanFrom n none ((ts.getLast?.map Token.stop).getD pos) after

/-- The tokens of a text, ended by one of class `finish`. -/
def scan (text : String) : List Token :=
  scanFrom (text.toList.length + 1) none 0 text.toList

end Token

end ParamThreading
