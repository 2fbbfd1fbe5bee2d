import ParamThreading.Document.Value

/-!
# Documents written as YAML

Block and flow collections, plain and quoted scalars and block scalars are read. Anchors, tags and
explicit keys are not understood.

* `Document.Yaml.Cursor`  a place in a text, with its column;
* `Document.Yaml.node?`  the value at a place;
* `Document.Yaml.parse`  the value of a text, or nothing if it is not one well-formed document.
-/

namespace ParamThreading

namespace Document.Yaml

/-- What is left of a text, the column where it begins, and whether only blanks precede it on its
line. -/
structure Cursor where
  column : Nat
  fresh : Bool
  rest : List Char
deriving DecidableEq, Repr, Inhabited

def isBlank (c : Char) : Bool :=
  c = ' ' || c = '\t'

/-- Whether a word ends before what follows. -/
def atGap (cs : List Char) : Bool :=
  match cs with
  | [] => true
  | c :: _ => isBlank c || c = '\n' || c = '\r'

namespace Cursor

def next (cur : Cursor) : Cursor :=
  match cur.rest with
  | [] => cur
  | c :: rest =>
    if c = '\n' then ⟨0, true, rest⟩
    else ⟨cur.column + 1, cur.fresh && (isBlank c || c = '\r'), rest⟩

def advance : Nat → Cursor → Cursor
  | 0, cur => cur
  | n + 1, cur => advance n cur.next

def skipBlanks (cur : Cursor) : Cursor :=
  cur.advance (cur.rest.takeWhile isBlank).length

/-- Past blanks, line ends and comments. A comment begins a line or follows a blank. -/
def skip : Nat → Bool → Cursor → Cursor
  | 0, _, cur => cur
  | n + 1, spaced, cur =>
    match cur.rest with
    | [] => cur
    | c :: rest =>
      if isBlank c || c = '\n' || c = '\r' then skip n true cur.next
      else if c = '#' && spaced then
        skip n true (cur.advance ((c :: rest).takeWhile (· != '\n')).length)
      else cur

def settle (cur : Cursor) : Cursor :=
  cur.skip (cur.rest.length + 1) cur.fresh

/-- Whether a marker of three characters that bounds documents stands here. -/
def atMarker (cur : Cursor) (marker : String) : Bool :=
  cur.fresh && cur.column == 0 &&
    match Cut.afterStart? marker.toList cur.rest with
    | some rest => atGap rest
    | none => false

def atEnd (cur : Cursor) : Bool :=
  cur.rest.isEmpty || cur.atMarker "---" || cur.atMarker "..."

end Cursor

def plainValue (cs : List Char) : Value :=
  let ofBase (base : Nat) (body : List Char) : Option Int :=
    let (negative, body) := Numeral.signed body
    (Numeral.digits? base body).bind fun n => Numeral.bounded (if negative then -n else n)
  let prefixed := match cs with
    | '0' :: 'x' :: body => ofBase 16 body
    | '0' :: 'o' :: body => ofBase 8 body
    | _ => none
  match prefixed with
  | some n => .int n
  | none =>
    let word := String.ofList cs
    if word == "" || word == "~" || word == "null" then .null
    else if word == "true" then .bool true
    else if word == "false" then .bool false
    else match Numeral.int? cs with
      | some n => .int n
      | none =>
        match (if cs.any Char.isDigit then Numeral.decimal? cs else none) with
        | some x => .double x
        | none => .text word

def isFlowMark (c : Char) : Bool :=
  c = ',' || c = '[' || c = ']' || c = '\x7b' || c = '\x7d'

/-- The characters of a plain scalar on one line, up to a colon or a comment. -/
def plainExtent (flow : Bool) (spaced : Bool) : List Char → List Char
  | [] => []
  | c :: cs =>
    if c = '\n' || c = '\r' then []
    else if c = ':' && (atGap cs || (flow && cs.head?.any isFlowMark)) then []
    else if c = '#' && spaced then []
    else if flow && isFlowMark c then []
    else c :: plainExtent flow (isBlank c) cs

def trimEnd (cs : List Char) : List Char :=
  (cs.reverse.dropWhile isBlank).reverse

/-- Whether a plain scalar may begin with these characters. -/
def startsPlain (flow : Bool) (cs : List Char) : Bool :=
  match cs with
  | [] => false
  | c :: rest =>
    if c = '-' || c = '?' || c = ':' then
      !atGap rest && !(flow && rest.head?.any isFlowMark)
    else !(",[]#&*!|>\"%@".toList.contains c || c = '\x7b' || c = '\x7d' ||
      c = '\x27' || c = '\x60')

/-- The line ends that separate two lines of a scalar: one is a blank, more are one fewer. -/
def folded (breaks : Nat) : List Char :=
  if breaks ≤ 1 then [' '] else List.replicate (breaks - 1) '\n'

/-- A plain scalar, continued on lines from the least column on. -/
def plain : Nat → Bool → Nat → List Char → Cursor → List Char × Cursor
  | 0, _, _, acc, cur => (acc, cur)
  | n + 1, flow, least, acc, cur =>
    let extent := trimEnd (plainExtent flow false cur.rest)
    let acc := acc ++ extent
    let here := cur.advance extent.length
    let gap := here.rest.takeWhile fun c => isBlank c || c = '\n' || c = '\r'
    let there := here.advance gap.length
    let breaks := (gap.filter (· = '\n')).length
    if 0 < breaks && least ≤ there.column && !there.atEnd && there.rest.head? != some '#' &&
        !(flow && there.rest.head?.any isFlowMark) && there.rest.head? != some ':' then
      plain n flow least (acc ++ folded breaks) there
    else (acc, here)

/-- The character that an escape of one letter stands for. -/
def shortEscape? (c : Char) : Option Char :=
  [('0', '\x00'), ('a', '\x07'), ('b', '\x08'), ('t', '\t'), ('\t', '\t'), ('n', '\n'),
    ('v', '\x0b'),
   ('f', '\x0c'), ('r', '\r'), ('e', '\x1b'), (' ', ' '), ('"', '"'), ('/', '/'), ('\\', '\\'),
   ('N', Char.ofNat 0x85), ('_', Char.ofNat 0xa0), ('L', Char.ofNat 0x2028),
   ('P', Char.ofNat 0x2029)].lookup c

/-- How many hexadecimal digits follow the letter of an escape. -/
def escapeWidth? (c : Char) : Option Nat :=
  [('x', 2), ('u', 4), ('U', 8)].lookup c

/-- The line ends within a quoted scalar: blanks around them do not count. -/
def quotedBreak (acc : List Char) (cur : Cursor) : List Char × Cursor :=
  let gap := cur.rest.takeWhile fun c => isBlank c || c = '\n' || c = '\r'
  let breaks := (gap.filter (· = '\n')).length
  ((folded breaks).reverse ++ acc.dropWhile isBlank, cur.advance gap.length)

def quoted? (quote : Char) : Nat → List Char → Cursor → Option (String × Cursor)
  | 0, _, _ => none
  | n + 1, acc, cur =>
    match cur.rest with
    | [] => none
    | c :: rest =>
      if c = quote then
        if quote = '\x27' && rest.head? == some quote then
          quoted? quote n (quote :: acc) (cur.advance 2)
        else some (String.ofList acc.reverse, cur.next)
      else if c = '\n' || c = '\r' then
        let (acc, cur) := quotedBreak acc cur
        quoted? quote n acc cur
      else if c = '\\' && quote = '"' then
        match rest with
        | [] => none
        | e :: more =>
          match escapeWidth? e with
          | some width =>
            (if more.length < width then none else Numeral.digits? 16 (more.take width)).bind
              fun code =>
              if code.isValidChar then
                quoted? quote n (Char.ofNat code :: acc) (cur.advance (width + 2))
              else none
          | none =>
            if e = '\n' then
              let gap := more.takeWhile isBlank
              quoted? quote n acc (cur.advance (gap.length + 2))
            else (shortEscape? e).bind fun x => quoted? quote n (x :: acc) (cur.advance 2)
      else quoted? quote n (c :: acc) cur.next

def quotedScalar? (cur : Cursor) : Option (String × Cursor) :=
  match cur.rest with
  | c :: rest => if c = '"' || c = '\x27' then quoted? c (rest.length + 1) [] cur.next else none
  | [] => none

/-- A key on one line with its colon. -/
def key? (cur : Cursor) : Option (String × Cursor) :=
  let colon (name : String) (after : Cursor) : Option (String × Cursor) :=
    match after.skipBlanks.rest with
    | ':' :: rest => if atGap rest then some (name, after.skipBlanks.next) else none
    | _ => none
  match quotedScalar? cur with
  | some (name, after) => colon name after
  | none =>
    if startsPlain false cur.rest then
      let extent := plainExtent false false cur.rest
      colon (String.ofList (trimEnd extent)) (cur.advance extent.length)
    else none

/-- The lines of a block scalar: each with its indentation, up to a line with a smaller one. -/
def blockLines : Nat → Nat → List (List Char) → Cursor → List (List Char) × Cursor
  | 0, _, acc, cur => (acc, cur)
  | n + 1, indent, acc, cur =>
    if cur.rest.isEmpty then (acc, cur)
    else
      let line := cur.rest.takeWhile (· != '\n')
      let inset := (line.takeWhile (· = ' ')).length
      if line.all (fun c => c = ' ' || c = '\r') then
        blockLines n indent (acc ++ [line.drop indent]) (cur.advance (line.length + 1))
      else if inset < indent then (acc, cur)
      else blockLines n indent (acc ++ [line.drop indent]) (cur.advance (line.length + 1))

/-- Lines of a folded scalar as one text. Lines that begin with a blank keep their line ends. -/
def foldLines : List (List Char) → List Char
  | [] => []
  | [line] => line ++ ['\n']
  | line :: next :: rest =>
    let keeps (l : List Char) := l.head?.any isBlank
    if line.isEmpty then '\n' :: foldLines (next :: rest)
    else if next.isEmpty then
      let after := (next :: rest).dropWhile List.isEmpty
      if keeps line || after.head?.any keeps || after.isEmpty then
        line ++ '\n' :: foldLines (next :: rest)
      else line ++ foldLines (next :: rest)
    else if keeps line || keeps next then line ++ '\n' :: foldLines (next :: rest)
    else line ++ ' ' :: foldLines (next :: rest)

/-- A block scalar whose lines stand from the least column on. -/
def blockScalar? (least : Nat) (cur : Cursor) : Option (Value × Cursor) :=
  let isFolded := cur.rest.head? == some '>'
  let header := cur.rest.tail.takeWhile fun c => c = '+' || c = '-' || c.isDigit
  let after := (cur.advance (header.length + 1)).skipBlanks
  let comment := if after.rest.head? == some '#' then after.rest.takeWhile (· != '\n') else []
  let after := after.advance comment.length
  if !(after.rest.isEmpty || after.rest.head? == some '\n' || after.rest.head? == some '\r') then
    none
  else
    let body := after.advance ((after.rest.takeWhile (· != '\n')).length + 1)
    let given := (header.find? Char.isDigit).map fun c => least - 1 + (c.toNat - '0'.toNat)
    let firstLine := (Cut.fields '\n' body.rest).find? fun l => l.any fun c => c != ' ' && c != '\r'
    let inset := ((firstLine.getD []).takeWhile (· = ' ')).length
    let indent := given.getD (max inset least)
    let (lines, rest) := blockLines (body.rest.length + 1) indent [] body
    let trailing := (lines.reverse.takeWhile List.isEmpty).length
    let kept := lines.take (lines.length - trailing)
    let joined := if isFolded then foldLines kept else kept.flatMap (· ++ ['\n'])
    let text := if header.contains '-' then joined.dropLast
      else if header.contains '+' then joined ++ List.replicate trailing '\n'
      else joined
    some (.text (String.ofList text), rest)

mutual

def flow? : Nat → Nat → Cursor → Option (Value × Cursor)
  | 0, _, _ => none
  | n + 1, least, cur =>
    let cur := cur.settle
    match cur.rest with
    | '[' :: _ => flowItems? n least [] cur.next
    | '\x7b' :: _ => flowFields? n least [] cur.next
    | _ =>
      match quotedScalar? cur with
      | some (s, cur) => some (.text s, cur)
      | none =>
        if startsPlain true cur.rest then
          let (text, cur) := plain (cur.rest.length + 1) true least [] cur
          some (plainValue text, cur)
        else none

def flowItems? : Nat → Nat → List Value → Cursor → Option (Value × Cursor)
  | 0, _, _, _ => none
  | n + 1, least, acc, cur =>
    let cur := cur.settle
    if cur.rest.head? == some ']' then some (.list acc, cur.next)
    else do
      let (v, cur) ← flow? n least cur
      let cur := cur.settle
      match cur.rest with
      | ',' :: _ => flowItems? n least (acc ++ [v]) cur.next
      | ']' :: _ => some (.list (acc ++ [v]), cur.next)
      | _ => none

def flowFields? : Nat → Nat → List (String × Value) → Cursor → Option (Value × Cursor)
  | 0, _, _, _ => none
  | n + 1, least, acc, cur =>
    let cur := cur.settle
    if cur.rest.head? == some '\x7d' then some (.table acc, cur.next)
    else do
      let (k, cur) ← flow? n least cur
      let key ← k.toText.toOption
      let cur := cur.settle
      let (v, cur) ← match cur.rest with
        | ':' :: _ =>
          let cur := cur.next.settle
          if cur.rest.head?.any fun c => c = ',' || c = '\x7d' then some (Value.null, cur)
          else flow? n least cur
        | _ => some (Value.null, cur)
      if (Value.lookup? acc key).isSome then none
      let cur := cur.settle
      match cur.rest with
      | ',' :: _ => flowFields? n least (acc ++ [(key, v)]) cur.next
      | '\x7d' :: _ => some (.table (acc ++ [(key, v)]), cur.next)
      | _ => none

end

def inline? (least : Nat) (cur : Cursor) : Option (Value × Cursor) :=
  match cur.rest with
  | [] => some (.null, cur)
  | c :: _ =>
    if c = '[' || c = '\x7b' then flow? (2 * cur.rest.length + 2) least cur
    else if c = '|' || c = '>' then blockScalar? least cur
    else match quotedScalar? cur with
      | some (s, cur) => some (.text s, cur)
      | none =>
        if startsPlain false cur.rest then
          let (text, cur) := plain (cur.rest.length + 1) false least [] cur
          some (plainValue text, cur)
        else none

def atDash (cur : Cursor) : Bool :=
  match cur.rest with
  | '-' :: rest => atGap rest
  | _ => false

mutual

/-- The value at a place. Scalars and tables stand from the least column on, lists from their own;
blocks begin on a fresh line unless they may be compact. -/
def node? : Nat → Nat → Nat → Bool → Cursor → Option (Value × Cursor)
  | 0, _, _, _, _ => none
  | n + 1, least, leastDash, compact, cur =>
    let cur := cur.settle
    let block := compact || cur.fresh
    if cur.atEnd then some (.null, cur)
    else if atDash cur then
      if !block then none
      else if leastDash ≤ cur.column then items? n cur.column [] cur
      else some (.null, cur)
    else if cur.fresh && cur.column < least then some (.null, cur)
    else if block && (key? cur).isSome then fields? n cur.column [] cur
    else inline? least cur

def items? : Nat → Nat → List Value → Cursor → Option (Value × Cursor)
  | 0, _, _, _ => none
  | n + 1, column, acc, cur => do
    let (v, cur) ← node? n (column + 1) (column + 1) true cur.next
    let cur := cur.settle
    let acc := acc ++ [v]
    if cur.atEnd then some (.list acc, cur)
    else if !cur.fresh || column < cur.column then none
    else if cur.column = column && atDash cur then items? n column acc cur
    else some (.list acc, cur)

def fields? : Nat → Nat → List (String × Value) → Cursor → Option (Value × Cursor)
  | 0, _, _, _ => none
  | n + 1, column, acc, cur => do
    let (key, cur) ← key? cur
    if (Value.lookup? acc key).isSome then none
    let (v, cur) ← node? n (column + 1) column false cur
    let cur := cur.settle
    let acc := acc ++ [(key, v)]
    if cur.atEnd then some (.table acc, cur)
    else if !cur.fresh || column < cur.column then none
    else if cur.column = column then fields? n column acc cur
    else some (.table acc, cur)

end

def skipDirectives : Nat → Cursor → Cursor
  | 0, cur => cur
  | n + 1, cur =>
    let cur := cur.settle
    if cur.fresh && cur.column == 0 && cur.rest.head? == some '%' then
      skipDirectives n (cur.advance (cur.rest.takeWhile (· != '\n')).length)
    else cur

/-- The value of a text; an empty table if it holds no document. -/
def parse (text : String) : Option Value := do
  let start : Cursor := ⟨0, true, text.toList⟩
  let cur := skipDirectives (start.rest.length + 1) start
  let explicit := cur.atMarker "---"
  if cur.rest.isEmpty && !explicit then return .table []
  let cur := if explicit then cur.advance 3 else cur
  let (v, cur) ← node? (4 * start.rest.length + 4) 0 0 (!explicit) cur
  let cur := cur.settle
  let cur := if cur.atMarker "..." then (cur.advance 3).settle else cur
  if cur.rest.isEmpty then some v else none

end Document.Yaml

end ParamThreading
