import Mathlib.Data.List.Basic
import ParamThreading.Analysis.CallGraph
import ParamThreading.Position.Address

/-!
# Trees and the ways through them

The traversals are recursive over nodes and lists of nodes at once; each is put in a form that
speaks of the children of a node, so that later proofs use one induction.

* `Node.induct`  induction over the children;
* `Node.everything_eq`, `Node.backward_eq`, `Node.enclosing_eq`  the traversals by children;
* `Node.All`  a property of every node of a tree;
* `Node.Path`  the way from a node up to the root through named nodes.
-/

namespace ParamThreading

/-- The content of a raw string can be empty; nodes of all other kinds cover some text. -/
def Kind.isSolid : Kind → Bool
  | .rawStringLiteralContent => false
  | _ => true

namespace Node

theorem sizeOf_lt_of_mem {c : Node} {k : Kind} {r : Option Role} {a b : Nat} {cs : List Node}
    (h : c ∈ cs) : sizeOf c < sizeOf (Node.mk k r a b cs) := by
  have hlt := List.sizeOf_lt_of_mem h
  rw [Node.mk.sizeOf_spec]
  omega

theorem induct {motive : Node → Prop}
    (step : ∀ n : Node, (∀ c ∈ n.children, motive c) → motive n) : ∀ n, motive n
  | .mk k r a b cs => step (.mk k r a b cs) fun c _ => induct step c
termination_by n => sizeOf n
decreasing_by exact sizeOf_lt_of_mem (by assumption)

/-! ## traversals by children -/

theorem everythingIn_eq (cs : List Node) : everythingIn cs = cs.flatMap everything := by
  induction cs with
  | nil => rfl
  | cons c cs ih => rw [everythingIn, ih, List.flatMap_cons]

theorem everything_eq (n : Node) : n.everything = n :: n.children.flatMap everything := by
  cases n with
  | mk k r a b cs => rw [everything, everythingIn_eq]; rfl

theorem mem_everything {n m : Node} :
    m ∈ n.everything ↔ m = n ∨ ∃ c ∈ n.children, m ∈ c.everything := by
  rw [everything_eq, List.mem_cons, List.mem_flatMap]

theorem self_mem_everything (n : Node) : n ∈ n.everything :=
  mem_everything.mpr (.inl rfl)

theorem everything_trans {l m n : Node} (h₁ : l ∈ m.everything) (h₂ : m ∈ n.everything) :
    l ∈ n.everything := by
  induction n using induct with
  | step n ih =>
    rcases mem_everything.mp h₂ with rfl | ⟨c, hc, hm⟩
    · exact h₁
    · exact mem_everything.mpr (.inr ⟨c, hc, ih c hc hm⟩)

theorem backwardIn_eq (cs : List Node) :
    backwardIn cs = (cs.filter (·.kind.isNamed)).reverse.flatMap backward := by
  induction cs with
  | nil => rfl
  | cons c cs ih =>
    rw [backwardIn, ih]
    by_cases h : c.kind.isNamed
    · simp [h]
    · simp [h]

theorem backward_eq (n : Node) : n.backward = n :: n.codeChildren.reverse.flatMap backward := by
  cases n with
  | mk k r a b cs => rw [backward, backwardIn_eq]; rfl

theorem enclosingIn_eq (start stop : Nat) (cs : List Node) : enclosingIn start stop cs =
    ((cs.find? fun c => c.kind.isNamed && c.encloses start stop).map
      (enclosing start stop)).getD [] := by
  induction cs with
  | nil => rfl
  | cons c cs ih =>
    rw [enclosingIn, List.find?_cons]
    cases c.kind.isNamed && c.encloses start stop with
    | true => rfl
    | false => exact ih

theorem enclosing_eq (start stop : Nat) (n : Node) : n.enclosing start stop =
    ((n.children.find? fun c => c.kind.isNamed && c.encloses start stop).map
      (enclosing start stop)).getD [] ++ [n] := by
  cases n with
  | mk k r a b cs => rw [enclosing, enclosingIn_eq]; rfl

/-! ## properties of every node -/

def All (p : Node → Prop) (n : Node) : Prop := ∀ m ∈ n.everything, p m

theorem all_iff {p : Node → Prop} {n : Node} :
    n.All p ↔ p n ∧ ∀ c ∈ n.children, c.All p := by
  refine ⟨fun h => ⟨h n (self_mem_everything n), fun c hc m hm => ?_⟩, fun h m hm => ?_⟩
  · exact h m (mem_everything.mpr (.inr ⟨c, hc, hm⟩))
  · rcases mem_everything.mp hm with rfl | ⟨c, hc, hm⟩
    · exact h.1
    · exact h.2 c hc m hm

theorem forall_all_leaf {p : Node → Prop} {k : Kind} {a b : Nat} (h : p (mk k none a b [])) :
    ∀ x ∈ [mk k none a b []], x.All p :=
  List.forall_mem_singleton.mpr (all_iff.mpr ⟨h, nofun⟩)

theorem All.self {p : Node → Prop} {n : Node} (h : n.All p) : p n := (all_iff.mp h).1

theorem All.child {p : Node → Prop} {n c : Node} (h : n.All p) (hc : c ∈ n.children) : c.All p :=
  (all_iff.mp h).2 c hc

theorem All.of_mem {p : Node → Prop} {n m : Node} (h : n.All p) (hm : m ∈ n.everything) : m.All p :=
  fun l hl => h l (everything_trans hl hm)

/-! ## ways up to the root -/

/-- The first node is reached from the root through named nodes; the nodes on the way are listed up
to the root. -/
inductive Path (root : Node) : List Node → Prop where
  | root : Path root [root]
  | child {c p : Node} {ps : List Node} : Path root (p :: ps) → c ∈ p.children →
      c.kind.isNamed = true → Path root (c :: p :: ps)

namespace Path

variable {root m : Node} {ps qs : List Node}

theorem mem_everything (h : Path root ps) : ∀ n ∈ ps, n ∈ root.everything := by
  induction h with
  | root =>
    intro n hn
    rw [List.mem_singleton.mp hn]
    exact self_mem_everything root
  | child _ hc _ ih =>
    intro n hn
    rcases List.mem_cons.mp hn with rfl | hn
    · have hp := ih _ List.mem_cons_self
      exact everything_trans (Node.mem_everything.mpr (.inr ⟨n, hc, self_mem_everything n⟩)) hp
    · exact ih n hn

theorem trans (h : Path m ps) (h' : Path root (m :: qs)) : Path root (ps ++ qs) := by
  induction h with
  | root => exact h'
  | child _ hc hn ih => exact .child ih hc hn

end Path

end Node

end ParamThreading
