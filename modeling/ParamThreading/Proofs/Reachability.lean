import Mathlib.Logic.Relation
import ParamThreading.Analysis.CallGraph

/-!
# What the edges of a call graph lead to

The search is bounded by the number of edges; the bound is never met, since the edges of a function
are followed once.

* `Leads`  an edge leads from one function to another;
* `FollowsUp`  the invariant of the search, `ComesTo` what it comes to from a state;
* `mem_reachFrom`  what the search finds;
* `CallGraph.withEdges`  a graph with other edges;
* `CallGraph.isReachable_build`  what is reached from the start of a program.
-/

namespace ParamThreading

def Leads (edges : List Edge) (f g : FunctionId) : Prop :=
  ∃ e ∈ edges, e.caller = f ∧ e.callee = g

/-- What a seen function leads to is seen or still to do. -/
def FollowsUp (edges : List Edge) (todo seen : List FunctionId) : Prop :=
  ∀ f ∈ seen, ∀ g, Leads edges f g → g ∈ seen ∨ g ∈ todo

/-- What a search comes to in the end: it is seen, or something that is still to do leads to it. -/
def ComesTo (edges : List Edge) (todo seen : List FunctionId) (g : FunctionId) : Prop :=
  g ∈ seen ∨ ∃ f ∈ todo, Relation.ReflTransGen (Leads edges) f g

section
variable {edges : List Edge} {todo seen : List FunctionId} {f g : FunctionId}

theorem mem_callees : g ∈ (edges.filter (·.caller == f)).map (·.callee) ↔ Leads edges f g := by
  simp [Leads, and_assoc]

namespace FollowsUp

theorem drop (h : FollowsUp edges (f :: todo) seen) (hf : f ∈ seen) :
    FollowsUp edges todo seen := by
  intro f' hf' g hstep
  rcases h f' hf' g hstep with hg | hg
  · exact .inl hg
  · rcases List.mem_cons.mp hg with rfl | hg
    · exact .inl hf
    · exact .inr hg

theorem expand (h : FollowsUp edges (f :: todo) seen) :
    FollowsUp edges ((edges.filter (·.caller == f)).map (·.callee) ++ todo) (f :: seen) := by
  intro f' hf' g hstep
  rcases List.mem_cons.mp hf' with rfl | hf'
  · exact .inr (List.mem_append_left _ (mem_callees.mpr hstep))
  · rcases h f' hf' g hstep with hg | hg
    · exact .inl (List.mem_cons_of_mem f hg)
    · rcases List.mem_cons.mp hg with rfl | hg
      · exact .inl List.mem_cons_self
      · exact .inr (List.mem_append_right _ hg)

theorem comesTo (h : FollowsUp edges todo seen) (hf : f ∈ seen)
    (hfg : Relation.ReflTransGen (Leads edges) f g) : ComesTo edges todo seen g := by
  induction hfg with
  | refl => exact .inl hf
  | tail _ hstep ih =>
    rcases ih with hseen | ⟨h', hh', hpath⟩
    · rcases h _ hseen _ hstep with hseen | htodo
      · exact .inl hseen
      · exact .inr ⟨_, htodo, .refl⟩
    · exact .inr ⟨h', hh', hpath.tail hstep⟩

end FollowsUp

theorem comesTo_drop (h : FollowsUp edges todo seen) (hf : f ∈ seen) :
    ComesTo edges todo seen g ↔ ComesTo edges (f :: todo) seen g := by
  constructor
  · rintro (hg | ⟨h', hh', hpath⟩)
    · exact .inl hg
    · exact .inr ⟨h', List.mem_cons_of_mem f hh', hpath⟩
  · rintro (hg | ⟨h', hh', hpath⟩)
    · exact .inl hg
    · rcases List.mem_cons.mp hh' with rfl | hh'
      · exact h.comesTo hf hpath
      · exact .inr ⟨h', hh', hpath⟩

theorem comesTo_expand :
    ComesTo edges ((edges.filter (·.caller == f)).map (·.callee) ++ todo) (f :: seen) g ↔
      ComesTo edges (f :: todo) seen g := by
  simp only [ComesTo, List.mem_cons, List.mem_append, mem_callees]
  constructor
  · rintro ((rfl | hg) | ⟨h, hstep | hh, hpath⟩)
    · exact .inr ⟨g, .inl rfl, .refl⟩
    · exact .inl hg
    · exact .inr ⟨f, .inl rfl, .head hstep hpath⟩
    · exact .inr ⟨h, .inr hh, hpath⟩
  · rintro (hg | ⟨h, rfl | hh, hpath⟩)
    · exact .inl (.inr hg)
    · rcases hpath.cases_head with rfl | ⟨h', hstep, hpath⟩
      · exact .inl (.inl rfl)
      · exact .inr ⟨h', .inl hstep, hpath⟩
    · exact .inr ⟨h, .inr hh, hpath⟩

/-- The edges of a function that was not seen are no longer counted when it is. -/
theorem length_unseen (hf : f ∉ seen) :
    (edges.filter (·.caller == f)).length +
      (edges.filter fun e => !(f :: seen).contains e.caller).length =
    (edges.filter fun e => !seen.contains e.caller).length := by
  induction edges with
  | nil => rfl
  | cons e edges ih =>
    by_cases h : e.caller = f
    · simp [h, hf] at ih ⊢
      omega
    · by_cases h' : e.caller ∈ seen
      · simp [h, h'] at ih ⊢
        omega
      · simp [h, h'] at ih ⊢
        omega

/-- Every turn uses up one entry of the list or moves the edges of a function into it, so that the
bound is not reached. -/
theorem mem_reachFrom {n : Nat}
    (hn : todo.length + (edges.filter fun e => !seen.contains e.caller).length ≤ n)
    (hfollows : FollowsUp edges todo seen) :
    g ∈ reachFrom edges n todo seen ↔ ComesTo edges todo seen g := by
  induction n generalizing todo seen with
  | zero =>
    have hnil : todo = [] := List.eq_nil_of_length_eq_zero (by omega)
    simp [reachFrom, ComesTo, hnil]
  | succ n ih =>
    cases todo with
    | nil => simp [reachFrom, ComesTo]
    | cons f todo =>
      rw [reachFrom]
      rw [List.length_cons] at hn
      split
      case isTrue hf =>
        rw [List.contains_iff_mem] at hf
        have hdrop := hfollows.drop hf
        rw [ih (by omega) hdrop, comesTo_drop hdrop hf]
      case isFalse hf =>
        rw [List.contains_iff_mem] at hf
        have hcount := @length_unseen edges seen f hf
        rw [ih ?_ hfollows.expand, comesTo_expand]
        simp only [List.length_append, List.length_map]
        omega

end

namespace CallGraph

def withEdges (g : CallGraph) (edges : List Edge) : CallGraph :=
  ⟨g.functions, edges, reachFrom edges (edges.length + 2) [rootFunction] []⟩

/-- What is reached is what edges lead to from the start of the program. -/
theorem isReachable_withEdges {g : CallGraph} {edges : List Edge} {f : FunctionId} :
    (g.withEdges edges).isReachable f = true ↔
      Relation.ReflTransGen (Leads edges) rootFunction f := by
  show (reachFrom edges (edges.length + 2) [rootFunction] []).contains f = true ↔ _
  rw [List.contains_iff_mem, mem_reachFrom ?_ fun _ h => absurd h List.not_mem_nil]
  · simp [ComesTo]
  · have hle := List.length_filter_le (fun e => !([] : List FunctionId).contains e.caller) edges
    rw [List.length_singleton]
    omega

theorem withEdges_build {p : Program} {scope : Scope} :
    (build p scope).withEdges (build p scope).edges = build p scope := rfl

theorem isReachable_build {p : Program} {scope : Scope} {f : FunctionId} :
    (build p scope).isReachable f = true ↔
      Relation.ReflTransGen (Leads (build p scope).edges) rootFunction f := by
  rw [← isReachable_withEdges, withEdges_build]

end CallGraph

end ParamThreading
