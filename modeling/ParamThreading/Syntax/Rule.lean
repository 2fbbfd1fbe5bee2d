import ParamThreading.Syntax.Node
import ParamThreading.Syntax.Token

/-!
# Recognition rules and their interpreter

The grammar is written in a small language, which has one interpreter.

A rule reads tokens from the front of a list and yields the nodes it builds. Choice is ordered: the
second branch is tried only where the first one fails. Left-recursive forms, such as `a.b.c`, are
written with a *held* node: `hold` reads a node and keeps it, `held` puts it in place as the first
child of a larger node, and `extend` does this as often as possible.

* `Terminal`  what a single token must look like;
* `Rule`  the rules, over a type of symbols that a grammar defines;
* `Rule.run`  the interpreter, with a bound on the depth of its recursion.
-/

namespace ParamThreading

/-- What a token must look like. -/
inductive Terminal where
  /-- Any word but the given ones, which are keywords at this place. -/
  | word (reserved : List String)
  | keyword (word : String)
  /-- Punctuation without a gap that spells the first text and none of the longer ones. -/
  | mark (spelling : String) (longer : List String)
  | cls (cls : TokenClass)
deriving Repr

namespace Terminal

/-- Reads the characters of an operator, the first one anywhere, the others without a gap. Gives
the end of the operator and the tokens after it. -/
def spell : List Char → Option Nat → List Token → Option (Nat × List Token)
  | [], stop, ts => stop.map fun b => (b, ts)
  | c :: cs, stop, t :: ts =>
    if t.cls == .mark && t.text == String.singleton c && stop.all (· == t.start) then
      spell cs (some t.stop) ts
    else none
  | _ :: _, _, [] => none

/-- The bytes that a terminal covers at the front of the tokens, and the tokens after it. -/
def take (t : Terminal) (ts : List Token) : Option (Nat × Nat × List Token) :=
  match ts with
  | [] => none
  | first :: rest =>
    match t with
    | .word reserved =>
      if first.cls == .word && !reserved.contains first.text then
        some (first.start, first.stop, rest)
      else none
    | .keyword w =>
      if first.cls == .word && first.text == w then some (first.start, first.stop, rest) else none
    | .mark s longer =>
      if longer.any fun l => (spell l.toList none ts).isSome then none
      else (spell s.toList none ts).map fun (stop, after) => (first.start, stop, after)
    | .cls c => if first.cls == c then some (first.start, first.stop, rest) else none

end Terminal

/-- Recognition rules over the symbols of a grammar. -/
inductive Rule (σ : Type) where
  /-- Reads nothing. -/
  | empty
  /-- Never succeeds. -/
  | fail
  /-- Reads a token and yields an unnamed node. -/
  | token (t : Terminal)
  /-- Reads a token and yields a named node. -/
  | leaf (kind : Kind) (t : Terminal)
  /-- Reads nothing and fails where a line break comes next. -/
  | onLine
  /-- The line break or the end of the text that comes next; a line break is an unnamed node. -/
  | lineEnd
  | ref (s : σ)
  | seq (a b : Rule σ)
  | alt (a b : Rule σ)
  /-- As often as the rule succeeds. -/
  | many (r : Rule σ)
  /-- Reads nothing and succeeds where the rule does. -/
  | ahead (r : Rule σ)
  /-- Reads nothing and succeeds where the rule fails. -/
  | notAhead (r : Rule σ)
  /-- What the rule reads, if it covers more than `n` bytes. -/
  | wide (n : Nat) (r : Rule σ)
  /-- A node around what the rule yields. -/
  | node (kind : Kind) (r : Rule σ)
  /-- Gives a role to the nodes that have none. -/
  | label (role : Role) (r : Rule σ)
  /-- Reads one node with the first rule and goes on with the second, which may put it in place. -/
  | hold (base body : Rule σ)
  /-- The held node. -/
  | held
  /-- Replaces the held node by a larger one as often as possible and yields the last. -/
  | extend (step : Rule σ)

namespace Rule

variable {σ : Type}

def seqs : List (Rule σ) → Rule σ
  | [] => .empty
  | [r] => r
  | r :: rs => .seq r (seqs rs)

/-- The first rule that succeeds. -/
def alts : List (Rule σ) → Rule σ
  | [] => .fail
  | [r] => r
  | r :: rs => .alt r (alts rs)

def opt (r : Rule σ) : Rule σ :=
  .alt r .empty

/-- A node for a left-recursive form. -/
def grow (base step : Rule σ) : Rule σ :=
  .hold base (.extend step)

/-- The nodes with a role for those that have none. -/
def giveRole (role : Role) (ns : List Node) : List Node :=
  ns.map fun n => if n.role.isNone then n.withRole role else n

/-- The number of bytes from the first to the last of some nodes. -/
def breadth (ns : List Node) : Nat :=
  ((ns.getLast?.map (·.stop)).getD 0) - ((ns.head?.map (·.start)).getD 0)

/-- Runs a rule on a list of tokens, with the node that is held. Gives the nodes it yields and the
tokens it leaves, or nothing where it fails or the bound on the depth is reached. -/
def run (grammar : σ → Rule σ) :
    Nat → Rule σ → Option Node → List Token → Option (List Node × List Token)
  | 0, _, _, _ => none
  | n + 1, r, held?, ts =>
    match r with
    | .empty => some ([], ts)
    | .fail => none
    | .token t => (t.take ts).map fun (a, b, rest) => ([.mk .token none a b []], rest)
    | .leaf k t => (t.take ts).map fun (a, b, rest) => ([.mk k none a b []], rest)
    | .onLine => if ts.head?.any (·.lineBreak.isSome) then none else some ([], ts)
    | .lineEnd =>
      match ts with
      | [] => none
      | t :: _ =>
        match t.lineBreak with
        | some a => some ([.mk .token none a (a + 1) []], ts)
        | none => if t.cls == .finish then some ([], ts) else none
    | .ref s => run grammar n (grammar s) held? ts
    | .seq a b =>
      match run grammar n a held? ts with
      | none => none
      | some (xs, rest) =>
        match run grammar n b held? rest with
        | none => none
        | some (ys, rest') => some (xs ++ ys, rest')
    | .alt a b =>
      match run grammar n a held? ts with
      | some result => some result
      | none => run grammar n b held? ts
    | .many r =>
      match run grammar n r held? ts with
      | none => some ([], ts)
      | some (xs, rest) =>
        match run grammar n (.many r) held? rest with
        | none => none
        | some (ys, rest') => some (xs ++ ys, rest')
    | .ahead r => (run grammar n r held? ts).map fun _ => ([], ts)
    | .notAhead r => if (run grammar n r held? ts).isSome then none else some ([], ts)
    | .wide m r =>
      match run grammar n r held? ts with
      | none => none
      | some (xs, rest) => if m < breadth xs then some (xs, rest) else none
    | .node k r => (run grammar n r held? ts).map fun (xs, rest) => ([.spanning k xs], rest)
    | .label role r => (run grammar n r held? ts).map fun (xs, rest) => (giveRole role xs, rest)
    | .hold base body =>
      match run grammar n base held? ts with
      | some ([x], rest) => run grammar n body (some x) rest
      | _ => none
    | .held => held?.map fun x => ([x], ts)
    | .extend step =>
      match run grammar n step held? ts with
      | some ([x], rest) => run grammar n (.extend step) (some x) rest
      | _ => held?.map fun x => ([x], ts)

end Rule

end ParamThreading
