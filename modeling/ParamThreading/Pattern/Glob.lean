import ParamThreading.Pattern.Basic

/-!
# Glob patterns

A glob matches the bytes of a whole path.

`?` is any byte and `*` any run of bytes; `**` as a whole component stands for any number of
components; `[a-z]` and `[!a-z]` are sets, `{a,b}` is a choice, and a backslash takes the next
character as it is. `?` and `*` pass over separators unless the options say otherwise.

* `Glob.parse`  the pattern of a glob, or what is wrong with it.
-/

namespace ParamThreading

namespace Glob

/-- How a glob is read. -/
structure Options where
  /-- `?` and `*` do not match a separator. -/
  separate : Bool
  /-- A bracket without a closing one stands for itself. -/
  lenient : Bool
deriving DecidableEq, Repr

/-- What is wrong with a glob. -/
inductive Fault where
  | unclosedSet
  | badRange (low high : Char)
  | unopenedChoice
  | unclosedChoice
  | danglingEscape
deriving DecidableEq, Repr, Inhabited

namespace Fault

def message : Fault → String
  | unclosedSet => "unclosed character class; missing ']'"
  | badRange low high =>
    "invalid range; '" ++ String.singleton low ++ "' > '" ++ String.singleton high ++ "'"
  | unopenedChoice =>
    "unopened alternate group; missing '\x7b' (maybe escape '\x7d' with '[\x7d]'?)"
  | unclosedChoice =>
    "unclosed alternate group; missing '\x7d' (maybe escape '\x7b' with '[\x7b]'?)"
  | danglingEscape => "dangling '\\'"

end Fault

/-- The parts of a glob. -/
inductive Token where
  | literal (c : Char)
  | any
  | run
  /-- `**` before the first separator, between two, and after the last. -/
  | leading
  | inner
  | trailing
  | set (negated : Bool) (ranges : List (Char × Char))
  | choice (p : Pattern UInt8)

def separator : UInt8 := 0x2f

def bytesOf (c : Char) : List UInt8 :=
  (String.singleton c).toUTF8.toList

/-- Whether a byte is in a range of characters, whose ends stand for their bytes. -/
def inRange (b : UInt8) (range : Char × Char) : Bool :=
  if range.1 = range.2 then (bytesOf range.1).contains b
  else
    let low := bytesOf range.1
    let high := bytesOf range.2
    low.dropLast.contains b || high.tail.contains b ||
      (low.getLast?.any (· ≤ b) && high.head?.any (b ≤ ·))

namespace Token

def pattern (o : Options) : Token → Pattern UInt8
  | literal c => .exactly (bytesOf c)
  | any => if o.separate then .symbol (· != separator) else .anything
  | run => .star (if o.separate then .symbol (· != separator) else .anything)
  | leading =>
    .alt (.opt (.exactly [separator])) (.seq (.star .anything) (.exactly [separator]))
  | inner =>
    .seq (.exactly [separator]) (.opt (.seq (.star .anything) (.exactly [separator])))
  | trailing => .seq (.exactly [separator]) (.star .anything)
  | set negated ranges => .symbol fun b => (ranges.any (inRange b)) != negated
  | choice p => p

end Token

def patternOf (o : Options) (ts : List Token) : Pattern UInt8 :=
  .seqs (ts.map (·.pattern o))

/-- A choice that is open: the tokens before it, last one first, and the branches that are
complete. -/
structure Frame where
  earlier : List Token
  branches : List (List Token)

/-- What has been read: the open choices, innermost first, and the tokens of the current branch,
last one first. -/
structure State where
  frames : List Frame
  tokens : List Token
  /-- A bracket was found to have no closing one. -/
  literalBrackets : Bool

namespace State

def push (s : State) (ts : List Token) : State :=
  { s with tokens := ts.reverse ++ s.tokens }

end State

/-- The ranges of a set up to its closing bracket, and what follows. Nothing if there is no closing
bracket. The ranges read so far come with the last one first. -/
def readSet : Bool → Bool → List (Char × Char) → List Char →
    Except Fault (Option (List (Char × Char) × List Char))
  | _, _, _, [] => .ok none
  | first, open_, ranges, c :: cs =>
    if c = ']' && !first then
      .ok (some ((if open_ then ('-', '-') :: ranges else ranges).reverse, cs))
    else if c = '-' && !first && !open_ then readSet false true ranges cs
    else if open_ then
      match ranges with
      | (low, _) :: rest =>
        if c < low then .error (.badRange low c) else readSet false false ((low, c) :: rest) cs
      | [] => readSet false false [(c, c)] cs
    else readSet false false ((c, c) :: ranges) cs

/-- The token that a second star makes, given the character before the first one, with what is left
to read. `none` if the stars are ordinary ones. -/
def readStars (s : State) (previous : Option Char) (rest : List Char) :
    Option (List Token × List Char) :=
  if s.tokens.isEmpty then
    match rest with
    | [] => some ([.leading], [])
    | '/' :: cs => some ([.leading], cs)
    | _ => none
  else if previous != some '/' &&
      (s.frames.isEmpty || (previous != some ',' && previous != some '\x7b')) then none
  else
    let ended (t : Token) : Option (List Token × List Char) :=
      match s.tokens, t with
      | .leading :: earlier, _ => some (.leading :: earlier, rest)
      | .trailing :: earlier, _ => some (.trailing :: earlier, rest)
      | _ :: earlier, t => some (t :: earlier, rest)
      | [], t => some ([t], rest)
    match rest with
    | [] => ended .trailing
    | '/' :: cs => (ended .inner).map fun (ts, _) => (ts, cs)
    | c :: _ => if !s.frames.isEmpty && (c = ',' || c = '\x7d') then ended .trailing else none

def read (o : Options) : Nat → Option Char → State → List Char → Except Fault State
  | 0, _, s, _ => .ok s
  | _ + 1, _, s, [] => .ok s
  | n + 1, previous, s, c :: cs =>
    match c with
    | '?' => read o n (some c) (s.push [.any]) cs
    | '*' =>
      match cs with
      | '*' :: rest =>
        match readStars s previous rest with
        | some (tokens, rest') =>
          let last := if rest'.length = rest.length then '*' else '/'
          read o n (some last) { s with tokens } rest'
        | none => read o n (some '*') (s.push [.run, .run]) rest
      | _ => read o n (some c) (s.push [.run]) cs
    | '[' =>
      if s.literalBrackets then read o n (some c) (s.push [.literal c]) cs
      else
        let (negated, body) := match cs with
          | '!' :: rest => (true, rest)
          | '^' :: rest => (true, rest)
          | _ => (false, cs)
        match readSet true false [] body with
        | .error f => .error f
        | .ok (some (ranges, rest)) => read o n (some ']') (s.push [.set negated ranges]) rest
        | .ok none =>
          if o.lenient then
            read o n (some c) ({ s with literalBrackets := true }.push [.literal c]) cs
          else .error .unclosedSet
    | '\x7b' => read o n (some c) { s with frames := ⟨s.tokens, []⟩ :: s.frames, tokens := [] } cs
    | '\x7d' =>
      match s.frames with
      | [] => .error .unopenedChoice
      | frame :: frames =>
        let branches := (frame.branches ++ [s.tokens.reverse]).filter (!·.isEmpty)
        let p := if branches.isEmpty then .empty else .alts (branches.map (patternOf o))
        read o n (some c) { s with frames, tokens := .choice p :: frame.earlier } cs
    | ',' =>
      match s.frames with
      | [] => read o n (some c) (s.push [.literal c]) cs
      | frame :: frames =>
        let frame := { frame with branches := frame.branches ++ [s.tokens.reverse] }
        read o n (some c) { s with frames := frame :: frames, tokens := [] } cs
    | '\\' =>
      match cs with
      | [] => .error .danglingEscape
      | e :: rest => read o n (some e) (s.push [.literal e]) rest
    | _ => read o n (some c) (s.push [.literal c]) cs

/-- The pattern of a glob. A glob that is nothing but `**` matches every path. -/
def parse (o : Options) (glob : String) : Except Fault (Pattern UInt8) := do
  let s ← read o (glob.toList.length + 1) none ⟨[], [], false⟩ glob.toList
  if !s.frames.isEmpty then throw .unclosedChoice
  match s.tokens with
  | [.leading] => return .star .anything
  | tokens => return patternOf o tokens.reverse

def holds (p : Pattern UInt8) (path : String) : Bool :=
  p.matchesAll path.toUTF8.data

end Glob

end ParamThreading
