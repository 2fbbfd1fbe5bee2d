import ParamThreading.Pattern.Basic
import ParamThreading.Text.Blank
import ParamThreading.Text.Cut
import ParamThreading.Text.Identifier
import ParamThreading.Text.Numeral

/-!
# Regular expressions

An expression matches somewhere in a text. It is made of sets of characters, groups, choices,
repetitions and boundaries, without backward references or looking around.

* `Regexp.parse`  the pattern of an expression, or nothing if it is not well formed;
* `Regexp.holds`  whether a text has a part that matches.
-/

namespace ParamThreading

namespace Regexp

/-- How an expression is read; a group can change it. -/
structure Mode where
  caseless : Bool := false
  /-- `^` and `$` also hold at line ends. -/
  multiline : Bool := false
  /-- `.` also matches a line end. -/
  dotAll : Bool := false
  /-- Blanks and comments do not count. -/
  spaced : Bool := false
deriving DecidableEq, Repr, Inhabited

def isWord (c : Char) : Bool :=
  c.isAlphanum || c = '_' || (0x80 ≤ c.toNat && Identifier.isContinue c)

/-- A character in either case. -/
def sameLetter (caseless : Bool) (a b : Char) : Bool :=
  a == b || (caseless && a.toLower == b.toLower)

/-- The set that a letter after a backslash stands for. -/
def letterSet? : Char → Option (Char → Bool)
  | 'd' => some Char.isDigit
  | 'D' => some (!Char.isDigit ·)
  | 's' => some Blank.holds
  | 'S' => some (!Blank.holds ·)
  | 'w' => some isWord
  | 'W' => some (!isWord ·)
  | _ => none

def letterBoundary? : Char → Option (Option Char → Option Char → Bool)
  | 'b' => some fun a b => a.any isWord != b.any isWord
  | 'B' => some fun a b => a.any isWord == b.any isWord
  | 'A' => some fun a _ => a.isNone
  | 'z' => some fun _ b => b.isNone
  | _ => none

def letterChar? : Char → Option Char
  | 'a' => some '\x07'
  | 'f' => some '\x0c'
  | 'n' => some '\n'
  | 'r' => some '\r'
  | 't' => some '\t'
  | 'v' => some '\x0b'
  | _ => none

/-- Punctuation, which a backslash makes stand for itself. -/
def isPlain (c : Char) : Bool :=
  c.toNat < 0x80 && !c.isAlphanum && c != '<' && c != '>' && 0x20 ≤ c.toNat && c.toNat != 0x7f

/-- A character by its code point in hexadecimal digits, between braces or of a fixed number. -/
def codePoint? (width : Nat) (cs : List Char) : Option (Char × List Char) := do
  let (digits, rest) ← match cs with
    | '\x7b' :: inner => Cut.cut? '\x7d' inner
    | cs => if cs.length < width then none else some (cs.take width, cs.drop width)
  let n ← Numeral.digits? 16 digits
  if n.isValidChar then some (Char.ofNat n, rest) else none

/-- A character after a backslash, where no set or boundary stands there. -/
def escapedChar? : List Char → Option (Char × List Char)
  | [] => none
  | 'x' :: rest => codePoint? 2 rest
  | 'u' :: rest => codePoint? 4 rest
  | 'U' :: rest => codePoint? 8 rest
  | c :: rest =>
    match letterChar? c with
    | some x => some (x, rest)
    | none => if isPlain c then some (c, rest) else none

def namedSet? (name : String) : Option (Char → Bool) :=
  [("alnum", Char.isAlphanum), ("alpha", Char.isAlpha), ("ascii", fun c => c.toNat < 0x80),
   ("blank", fun c => c = ' ' || c = '\t'), ("cntrl", fun c => c.toNat < 0x20 || c.toNat = 0x7f),
   ("digit", Char.isDigit), ("graph", fun c => 0x20 < c.toNat && c.toNat < 0x7f),
   ("lower", Char.isLower), ("print", fun c => 0x20 ≤ c.toNat && c.toNat < 0x7f),
   ("punct", fun c => isPlain c && c != ' ' || c = '<' || c = '>'),
   ("space", fun c => c = ' ' || (0x09 ≤ c.toNat && c.toNat ≤ 0x0d)), ("upper", Char.isUpper),
   ("word", fun c => c.isAlphanum || c = '_'),
   ("xdigit", fun c => c.isDigit || ('a' ≤ c && c ≤ 'f') || ('A' ≤ c && c ≤ 'F'))].lookup name

/-- A set between colons, such as `[:digit:]`, and what follows. -/
def named? (cs : List Char) : Option ((Char → Bool) × List Char) := do
  let inner ← Cut.afterStart? ['[', ':'] cs
  let (name, rest) ← Cut.cut? ':' inner
  let rest ← Cut.afterStart? [']'] rest
  let (negated, name) := match name with
    | '^' :: name => (true, name)
    | name => (false, name)
  let accepts ← namedSet? (String.ofList name)
  some (fun c => accepts c != negated, rest)

/-- One character of a set, as the end of a range. -/
def setChar? : List Char → Option (Char × List Char)
  | [] => none
  | '\\' :: rest => escapedChar? rest
  | c :: rest => some (c, rest)

/-- Whether a range lies behind a character, or just a hyphen before the end or an operator. -/
def rangeFollows (cs : List Char) : Bool :=
  match cs with
  | '-' :: ']' :: _ => false
  | '-' :: '-' :: _ => false
  | '-' :: _ => true
  | _ => false

/-- How the parts of a set are combined. -/
inductive SetOperator where
  | intersection
  | difference
  | symmetric
deriving DecidableEq, Repr

namespace SetOperator

def combine (o : SetOperator) (a b : Char → Bool) (c : Char) : Bool :=
  match o with
  | intersection => a c && b c
  | difference => a c && !b c
  | symmetric => a c != b c

end SetOperator

def operator? : List Char → Option (SetOperator × List Char)
  | '&' :: '&' :: rest => some (.intersection, rest)
  | '-' :: '-' :: rest => some (.difference, rest)
  | '~' :: '~' :: rest => some (.symmetric, rest)
  | _ => none

def withCases (caseless : Bool) (accepts : Char → Bool) (c : Char) : Bool :=
  accepts c || (caseless && (accepts c.toLower || accepts c.toUpper))

/-- The rest of a set up to its closing bracket. The part that is open grows by `accepts`, and what
stands before the last operator is combined with it at the end. -/
def set? (mode : Mode) : Nat → Bool → (Char → Bool) → ((Char → Bool) → Char → Bool) → List Char →
    Option ((Char → Bool) × List Char)
  | 0, _, _, _, _ => none
  | _ + 1, _, _, _, [] => none
  | n + 1, first, accepts, close, c :: cs =>
    let grow (more : Char → Bool) (rest : List Char) :=
      set? mode n false (fun x => accepts x || more x) close rest
    if c = ']' && !first then some (close accepts, cs)
    else if mode.spaced && Blank.holds c then set? mode n first accepts close cs
    else match operator? (c :: cs) with
      | some (o, rest) =>
        set? mode n false (fun _ => false) (fun b => o.combine (close accepts) b) rest
      | none =>
        match named? (c :: cs) with
        | some (more, rest) => grow more rest
        | none =>
          if c = '[' then
            let (negated, inner) := match cs with
              | '^' :: inner => (true, inner)
              | inner => (false, inner)
            match set? mode n true (fun _ => false) id inner with
            | some (more, rest) => grow (fun x => more x != negated) rest
            | none => none
          else
            match (if c = '\\' then cs.head?.bind letterSet? else none) with
            | some more => grow more cs.tail
            | none =>
              match setChar? (c :: cs) with
              | none => none
              | some (low, rest) =>
                if rangeFollows rest then
                  match setChar? rest.tail with
                  | none => none
                  | some (high, rest) =>
                    if high < low then none
                    else grow (withCases mode.caseless fun x => low ≤ x && x ≤ high) rest
                else grow (sameLetter mode.caseless low) rest

/-- Skips blanks and comments where they do not count. -/
def skip (mode : Mode) : Nat → List Char → List Char
  | 0, cs => cs
  | n + 1, cs =>
    if !mode.spaced then cs
    else match cs with
      | '#' :: rest => skip mode n (rest.dropWhile (· != '\n'))
      | c :: rest => if Blank.holds c then skip mode n rest else cs
      | [] => []

def switch? (on : Bool) (mode : Mode) : List Char → Option Mode
  | [] => some mode
  | '-' :: cs => if on && !cs.isEmpty then switch? false mode cs else none
  | 'i' :: cs => switch? on { mode with caseless := on } cs
  | 'm' :: cs => switch? on { mode with multiline := on } cs
  | 's' :: cs => switch? on { mode with dotAll := on } cs
  | 'x' :: cs => switch? on { mode with spaced := on } cs
  | 'U' :: cs => switch? on mode cs
  | 'u' :: cs => switch? on mode cs
  | 'R' :: cs => switch? on mode cs
  | _ :: _ => none

/-- The numbers of a repetition between braces: the least and the greatest. -/
def bounds? (cs : List Char) : Option (Nat × Option Nat) :=
  let number (ds : List Char) : Option Nat :=
    (Numeral.digits? 10 (Blank.trim ds)).bind fun n => if n < UInt32.size then some n else none
  match Cut.cut? ',' cs with
  | none => (number cs).map fun n => (n, some n)
  | some (low, high) => do
    let least ← if (Blank.trim low).isEmpty then some 0 else number low
    if (Blank.trim high).isEmpty then
      if (Blank.trim low).isEmpty then none else some (least, none)
    else
      let greatest ← number high
      if greatest < least then none else some (least, some greatest)

/-- Drops the mark of a repetition that takes as little as possible: it does not change what
matches. -/
def withoutMark (mode : Mode) (cs : List Char) : List Char :=
  match skip mode (cs.length + 1) cs with
  | '?' :: rest => rest
  | _ => cs

def repetitions? (mode : Mode) : Nat → Pattern Char → List Char → Option (Pattern Char × List Char)
  | 0, p, cs => some (p, cs)
  | n + 1, p, cs =>
    match skip mode (cs.length + 1) cs with
    | '*' :: rest => repetitions? mode n (.star p) (withoutMark mode rest)
    | '+' :: rest => repetitions? mode n (.repeated p 1 none) (withoutMark mode rest)
    | '?' :: rest => repetitions? mode n (.opt p) (withoutMark mode rest)
    | '\x7b' :: inner => do
      let (numbers, rest) ← Cut.cut? '\x7d' inner
      let (least, greatest) ← bounds? numbers
      repetitions? mode n (.repeated p least greatest) (withoutMark mode rest)
    | _ => some (p, cs)

def groupName? (cs : List Char) : Option (List Char) := do
  let (name, rest) ← Cut.cut? '>' cs
  let first ← name.head?
  let isName (c : Char) := isWord c || c = '.' || c = '[' || c = ']'
  if (first.isAlpha || first = '_' || 0x80 ≤ first.toNat) && name.all isName then
    some rest
  else none

def single? (mode : Mode) (c : Char) : Option (Pattern Char) :=
  match c with
  | '.' => some (.symbol fun x => mode.dotAll || x != '\n')
  | '^' => some (.boundary fun a _ => a.isNone || (mode.multiline && a == some '\n'))
  | '$' => some (.boundary fun _ b => b.isNone || (mode.multiline && b == some '\n'))
  | '*' => none
  | '+' => none
  | '?' => none
  | '\x7b' => none
  | c => some (.symbol (sameLetter mode.caseless c))

def escape? (mode : Mode) (cs : List Char) : Option (Pattern Char × List Char) :=
  match cs.head?.bind letterSet?, cs.head?.bind letterBoundary? with
  | some accepts, _ => some (.symbol accepts, cs.tail)
  | none, some between => some (.boundary between, cs.tail)
  | none, none =>
    (escapedChar? cs).map fun (c, rest) => (.symbol (sameLetter mode.caseless c), rest)

mutual

/-- A choice, up to the end of the group or of the expression. -/
def choice? : Nat → Mode → List Char → Option (Pattern Char × List Char)
  | 0, _, _ => none
  | n + 1, mode, cs => do
    let (p, mode, rest) ← sequence? n mode .empty cs
    match rest with
    | '|' :: rest =>
      let (q, rest) ← choice? n mode rest
      some (.alt p q, rest)
    | rest => some (p, rest)

/-- A sequence behind a pattern, with the mode that it leaves. -/
def sequence? : Nat → Mode → Pattern Char → List Char → Option (Pattern Char × Mode × List Char)
  | 0, _, _, _ => none
  | n + 1, mode, before, cs =>
    let go (p : Pattern Char) (rest : List Char) : Option (Pattern Char × Mode × List Char) := do
      let (p, rest) ← repetitions? mode (rest.length + 1) p rest
      sequence? n mode (.seq before p) rest
    match skip mode (cs.length + 1) cs with
    | [] => some (before, mode, [])
    | ')' :: rest => some (before, mode, ')' :: rest)
    | '|' :: rest => some (before, mode, '|' :: rest)
    | '(' :: '?' :: 'P' :: '<' :: rest => do
      let (p, rest) ← group? n mode (← groupName? rest)
      go p rest
    | '(' :: '?' :: '<' :: rest => do
      let (p, rest) ← group? n mode (← groupName? rest)
      go p rest
    | '(' :: '?' :: rest =>
      let letters := rest.takeWhile fun c => c != ')' && c != ':'
      match switch? true mode letters, rest.drop letters.length with
      | some inner, ':' :: rest => do
        let (p, rest) ← group? n inner rest
        go p rest
      | some mode, ')' :: rest => if letters.isEmpty then none else sequence? n mode before rest
      | _, _ => none
    | '(' :: rest => do
      let (p, rest) ← group? n mode rest
      go p rest
    | '[' :: rest => do
      let (negated, inner) := match rest with
        | '^' :: inner => (true, inner)
        | inner => (false, inner)
      let (accepts, rest) ← set? mode (2 * inner.length + 2) true (fun _ => false) id inner
      go (.symbol fun c => accepts c != negated) rest
    | '\\' :: rest => do
      let (p, rest) ← escape? mode rest
      go p rest
    | c :: rest => do
      let p ← single? mode c
      go p rest

def group? : Nat → Mode → List Char → Option (Pattern Char × List Char)
  | 0, _, _ => none
  | n + 1, mode, cs => do
    let (p, rest) ← choice? n mode cs
    match rest with
    | ')' :: rest => some (p, rest)
    | _ => none

end

def parse (text : String) : Option (Pattern Char) := do
  let cs := text.toList
  let (p, rest) ← choice? (3 * cs.length + 3) {} cs
  if rest.isEmpty then some p else none

def holds (p : Pattern Char) (text : String) : Bool :=
  p.matchesSomewhere text.toList.toArray

end Regexp

end ParamThreading
