import Mathlib.Logic.Basic
import ParamThreading.Syntax.Rule

/-!
# What a rule can read

These are the derivations behind the results of the interpreter, without the bound on the depth.
Only what a result is made of is kept; why other branches fail is not.

* `Rule.Reads`  a rule reads nodes off the front of a list of tokens;
* `Rule.reads_of_run`  the results of the interpreter are readings;
* `Rule.forms`, `Rule.leaves`, `Rule.refs`  the forms, the leaves and the symbols in a rule.
-/

namespace ParamThreading

namespace Rule

variable {σ : Type} {grammar : σ → Rule σ}

/-- A rule, with a node that may be held, reads nodes off the front of a list of tokens and leaves
the rest. -/
inductive Reads (grammar : σ → Rule σ) :
    Rule σ → Option Node → List Token → List Node → List Token → Prop where
  | empty {h ts} : Reads grammar .empty h ts [] ts
  | token {h ts rest t a b} : Terminal.take t ts = some (a, b, rest) →
      Reads grammar (.token t) h ts [.mk .token none a b []] rest
  | leaf {h ts rest k t a b} : Terminal.take t ts = some (a, b, rest) →
      Reads grammar (.leaf k t) h ts [.mk k none a b []] rest
  | onLine {h ts} : Reads grammar .onLine h ts [] ts
  | lineBreak {h ts t a} : t.lineBreak = some a →
      Reads grammar .lineEnd h (t :: ts) [.mk .token none a (a + 1) []] (t :: ts)
  | finish {h ts} : Reads grammar .lineEnd h ts [] ts
  | ref {h ts xs rest s} : Reads grammar (grammar s) h ts xs rest →
      Reads grammar (.ref s) h ts xs rest
  | seq {h ts mid rest xs ys a b} : Reads grammar a h ts xs mid → Reads grammar b h mid ys rest →
      Reads grammar (.seq a b) h ts (xs ++ ys) rest
  | first {h ts rest xs a b} : Reads grammar a h ts xs rest → Reads grammar (.alt a b) h ts xs rest
  | second {h ts rest xs a b} : Reads grammar b h ts xs rest → Reads grammar (.alt a b) h ts xs rest
  | none {h ts r} : Reads grammar (.many r) h ts [] ts
  | more {h ts mid rest xs ys r} : Reads grammar r h ts xs mid →
      Reads grammar (.many r) h mid ys rest → Reads grammar (.many r) h ts (xs ++ ys) rest
  | ahead {h ts r} : Reads grammar (.ahead r) h ts [] ts
  | notAhead {h ts r} : Reads grammar (.notAhead r) h ts [] ts
  | wide {h ts rest xs n r} : Reads grammar r h ts xs rest → Reads grammar (.wide n r) h ts xs rest
  | node {h ts rest xs k r} : Reads grammar r h ts xs rest →
      Reads grammar (.node k r) h ts [.spanning k xs] rest
  | label {h ts rest xs role r} : Reads grammar r h ts xs rest →
      Reads grammar (.label role r) h ts (giveRole role xs) rest
  | hold {h ts mid rest x xs base body} : Reads grammar base h ts [x] mid →
      Reads grammar body (some x) mid xs rest → Reads grammar (.hold base body) h ts xs rest
  | held {ts x} : Reads grammar .held (some x) ts [x] ts
  | extended {ts x step} : Reads grammar (.extend step) (some x) ts [x] ts
  | extend {h ts mid rest x xs step} : Reads grammar step h ts [x] mid →
      Reads grammar (.extend step) (some x) mid xs rest →
      Reads grammar (.extend step) h ts xs rest

theorem reads_of_run {n : Nat} {r : Rule σ} {h : Option Node} {ts rest : List Token}
    {xs : List Node} (hrun : run grammar n r h ts = some (xs, rest)) :
    Reads grammar r h ts xs rest := by
  induction n generalizing r h ts xs rest with
  | zero => cases hrun
  | succ n ih =>
    cases r with
    | empty => cases hrun; exact .empty
    | fail => cases hrun
    | token t =>
      obtain ⟨⟨a, b, rest'⟩, ht, e⟩ := Option.map_eq_some_iff.mp hrun
      cases e
      exact .token ht
    | leaf k t =>
      obtain ⟨⟨a, b, rest'⟩, ht, e⟩ := Option.map_eq_some_iff.mp hrun
      cases e
      exact .leaf ht
    | onLine =>
      simp only [run] at hrun
      split at hrun
      · cases hrun
      · cases hrun; exact .onLine
    | lineEnd =>
      simp only [run] at hrun
      split at hrun
      · cases hrun
      · split at hrun
        case h_1 hb =>
          cases hrun
          exact .lineBreak hb
        case h_2 =>
          split at hrun
          · cases hrun; exact .finish
          · cases hrun
    | ref s => exact .ref (ih hrun)
    | seq a b =>
      simp only [run] at hrun
      split at hrun
      case h_1 => cases hrun
      case h_2 ha =>
        split at hrun
        case h_1 => cases hrun
        case h_2 hb =>
          cases hrun
          exact .seq (ih ha) (ih hb)
    | alt a b =>
      simp only [run] at hrun
      split at hrun
      case h_1 ha =>
        cases hrun
        exact .first (ih ha)
      case h_2 => exact .second (ih hrun)
    | many r =>
      simp only [run] at hrun
      split at hrun
      case h_1 => cases hrun; exact .none
      case h_2 hr =>
        split at hrun
        case h_1 => cases hrun
        case h_2 hmore =>
          cases hrun
          exact .more (ih hr) (ih hmore)
    | ahead r =>
      obtain ⟨_, -, e⟩ := Option.map_eq_some_iff.mp hrun
      cases e
      exact .ahead
    | notAhead r =>
      simp only [run] at hrun
      split at hrun
      · cases hrun
      · cases hrun; exact .notAhead
    | wide m r =>
      simp only [run] at hrun
      split at hrun
      case h_1 => cases hrun
      case h_2 hr =>
        split at hrun
        · cases hrun; exact .wide (ih hr)
        · cases hrun
    | node k r =>
      obtain ⟨⟨ys, rest'⟩, hr, e⟩ := Option.map_eq_some_iff.mp hrun
      cases e
      exact .node (ih hr)
    | label role r =>
      obtain ⟨⟨ys, rest'⟩, hr, e⟩ := Option.map_eq_some_iff.mp hrun
      cases e
      exact .label (ih hr)
    | hold base body =>
      simp only [run] at hrun
      split at hrun
      case h_1 hbase => exact .hold (ih hbase) (ih hrun)
      case h_2 => cases hrun
    | held =>
      obtain ⟨x, rfl, e⟩ := Option.map_eq_some_iff.mp hrun
      cases e
      exact .held
    | extend step =>
      simp only [run] at hrun
      split at hrun
      case h_1 hstep => exact .extend (ih hstep) (ih hrun)
      case h_2 =>
        obtain ⟨x, rfl, e⟩ := Option.map_eq_some_iff.mp hrun
        cases e
        exact .extended

/-! ## the parts of a rule -/

/-- The forms in a rule: kinds of nodes with the rule for their children. -/
def forms : Rule σ → List (Kind × Rule σ)
  | .node k r => (k, r) :: forms r
  | .seq a b | .alt a b | .hold a b => forms a ++ forms b
  | .many r | .wide _ r | .label _ r | .extend r => forms r
  | _ => []

def leaves : Rule σ → List Kind
  | .leaf k _ => [k]
  | .seq a b | .alt a b | .hold a b => leaves a ++ leaves b
  | .many r | .wide _ r | .label _ r | .extend r | .node _ r => leaves r
  | _ => []

/-- The symbols that a rule refers to. What it only looks ahead for does not count. -/
def refs : Rule σ → List σ
  | .ref s => [s]
  | .seq a b | .alt a b | .hold a b => refs a ++ refs b
  | .many r | .wide _ r | .label _ r | .extend r | .node _ r => refs r
  | _ => []

end Rule

end ParamThreading
