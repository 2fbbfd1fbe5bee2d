import Mathlib.Data.List.Nodup
import Mathlib.Data.Set.Finite.Basic
import ParamThreading.Threading.Propagation

/-!
# The closure law of the walk to the callers

The walk from a function to its callers adds exactly what can be reached, whatever answers the
question who calls a function, as long as the answer depends on the place of the function only.

* `AddsFresh`  a list that grows at its end by entries with new keys;
* `Visits`, `Reached`  the addresses and the places that the walk can come to;
* `Walk.Takes`  what a list of calls does to a walk, `Walk.Sound` and `Walk.Closed` the invariants
  of the loop;
* `Walk.Runs`  the turns of the loop up to its end;
* `propagateInto_exact`  the closure law.

The loop has no bound of its own. It ends if the reached places are finitely many, as they are when
files and offsets are machine words.
-/

namespace ParamThreading

/-! ## lists that grow by entries with new keys -/

section
variable {α κ : Type} {key : α → κ} {xs ys zs : List α}

/-- The second list is the first one with entries behind it whose keys are new, each of them once.
-/
def AddsFresh (key : α → κ) (xs ys : List α) : Prop :=
  ∃ added, ys = xs ++ added ∧ (added.map key).Nodup ∧ ∀ a ∈ added, key a ∉ xs.map key

namespace AddsFresh

theorem refl (key : α → κ) (xs : List α) : AddsFresh key xs xs :=
  ⟨[], (List.append_nil xs).symm, List.nodup_nil, by simp⟩

theorem trans (h₁ : AddsFresh key xs ys) (h₂ : AddsFresh key ys zs) : AddsFresh key xs zs := by
  obtain ⟨as, rfl, hnd, hnew⟩ := h₁
  obtain ⟨bs, rfl, hnd', hnew'⟩ := h₂
  refine ⟨as ++ bs, List.append_assoc .., ?_, ?_⟩
  · rw [List.map_append, List.nodup_append]
    refine ⟨hnd, hnd', ?_⟩
    intro k hk k' hk' e
    obtain ⟨b, hb, rfl⟩ := List.mem_map.mp hk'
    apply hnew' b hb
    rw [List.map_append]
    exact List.mem_append_right _ (e ▸ hk)
  · intro a ha
    rcases List.mem_append.mp ha with h | h
    · exact hnew a h
    · intro hx
      apply hnew' a h
      rw [List.map_append]
      exact List.mem_append_left _ hx

theorem push {a : α} (h : key a ∉ xs.map key) : AddsFresh key xs (xs ++ [a]) := by
  refine ⟨[a], rfl, List.nodup_singleton _, ?_⟩
  intro b hb
  rw [List.mem_singleton.mp hb]
  exact h

theorem isPrefix (h : AddsFresh key xs ys) : xs <+: ys := by
  obtain ⟨as, rfl, -⟩ := h
  exact List.prefix_append ..

theorem nodup (h : AddsFresh key xs ys) (hx : (xs.map key).Nodup) : (ys.map key).Nodup := by
  obtain ⟨as, rfl, hnd, hnew⟩ := h
  rw [List.map_append, List.nodup_append]
  refine ⟨hx, hnd, ?_⟩
  intro k hk k' hk' e
  obtain ⟨a, ha, rfl⟩ := List.mem_map.mp hk'
  exact hnew a ha (e ▸ hk)

theorem eq_of_keys (h : AddsFresh key xs ys) (hk : ∀ k ∈ ys.map key, k ∈ xs.map key) : ys = xs := by
  obtain ⟨as, rfl, -, hnew⟩ := h
  cases as with
  | nil => exact List.append_nil xs
  | cons a as =>
    have ha : a ∈ xs ++ a :: as := List.mem_append_right _ List.mem_cons_self
    exact absurd (hk _ (List.mem_map_of_mem ha)) (hnew a List.mem_cons_self)

end AddsFresh

end

/-! ## frontiers -/

namespace Frontier

variable (f : Frontier) (a : Address) (k : Key)

def signatureKeys : List Key := f.signatures.map (·.key)

def callKeys : List Key := f.callSites.map (·.callKey)

theorem hasSignature_iff : f.hasSignature k = true ↔ k ∈ f.signatureKeys := by
  simp [hasSignature, signatureKeys, beq_iff_eq]

theorem hasCallSite_iff : f.hasCallSite k = true ↔ k ∈ f.callKeys := by
  simp [hasCallSite, callKeys, beq_iff_eq]

@[simp] theorem callSites_addSignature : (f.addSignature a).callSites = f.callSites := by
  unfold addSignature; split <;> rfl

@[simp] theorem signatures_addCallSite : (f.addCallSite a).signatures = f.signatures := by
  unfold addCallSite; split <;> rfl

theorem signatures_addSignature :
    AddsFresh (·.key) f.signatures (f.addSignature a).signatures := by
  unfold addSignature
  split
  case isTrue => exact .refl ..
  case isFalse h => exact .push fun hk => h ((hasSignature_iff f a.key).mpr hk)

theorem callSites_addCallSite :
    AddsFresh (·.callKey) f.callSites (f.addCallSite a).callSites := by
  unfold addCallSite
  split
  case isTrue => exact .refl ..
  case isFalse h => exact .push fun hk => h ((hasCallSite_iff f a.callKey).mpr hk)

theorem mem_signatureKeys_addSignature :
    k ∈ (f.addSignature a).signatureKeys ↔ k ∈ f.signatureKeys ∨ k = a.key := by
  unfold addSignature
  split
  case isTrue h =>
    have ha := (hasSignature_iff f a.key).mp h
    exact ⟨.inl, fun hk => hk.elim id fun e => e ▸ ha⟩
  case isFalse => simp [signatureKeys]

theorem mem_callKeys_addCallSite :
    k ∈ (f.addCallSite a).callKeys ↔ k ∈ f.callKeys ∨ k = a.callKey := by
  unfold addCallSite
  split
  case isTrue h =>
    have ha := (hasCallSite_iff f a.callKey).mp h
    exact ⟨.inl, fun hk => hk.elim id fun e => e ▸ ha⟩
  case isFalse => simp [callKeys]

theorem mem_signatures_addSignature {b : Address} (h : b ∈ (f.addSignature a).signatures) :
    b ∈ f.signatures ∨ b = a := by
  unfold addSignature at h
  split at h
  · exact .inl h
  · exact (List.mem_append.mp h).imp_right List.mem_singleton.mp

theorem mem_callSites_addCallSite {b : Address} (h : b ∈ (f.addCallSite a).callSites) :
    b ∈ f.callSites ∨ b = a := by
  unfold addCallSite at h
  split at h
  · exact .inl h
  · exact (List.mem_append.mp h).imp_right List.mem_singleton.mp

/-- One frontier holds the entries of another in their order, and behind them new ones. -/
structure Extends (f g : Frontier) : Prop where
  signatures : AddsFresh (·.key) f.signatures g.signatures
  callSites : AddsFresh (·.callKey) f.callSites g.callSites

namespace Extends

variable {f g h : Frontier}

theorem refl (f : Frontier) : Extends f f := ⟨.refl .., .refl ..⟩

theorem trans (h₁ : Extends f g) (h₂ : Extends g h) : Extends f h :=
  ⟨h₁.signatures.trans h₂.signatures, h₁.callSites.trans h₂.callSites⟩

theorem mem_signatureKeys {k : Key} (h : Extends f g) (hk : k ∈ f.signatureKeys) :
    k ∈ g.signatureKeys :=
  (h.signatures.isPrefix.map _).subset hk

theorem mem_callKeys {k : Key} (h : Extends f g) (hk : k ∈ f.callKeys) : k ∈ g.callKeys :=
  (h.callSites.isPrefix.map _).subset hk

theorem eq_of_keys (h : Extends f g) (hs : ∀ k ∈ g.signatureKeys, k ∈ f.signatureKeys)
    (hc : ∀ k ∈ g.callKeys, k ∈ f.callKeys) : g = f := by
  have e₁ := h.signatures.eq_of_keys hs
  have e₂ := h.callSites.eq_of_keys hc
  cases f; cases g
  cases e₁; cases e₂
  rfl

end Extends

theorem extends_addSignature : Extends f (f.addSignature a) :=
  ⟨signatures_addSignature f a, by rw [callSites_addSignature]; exact .refl ..⟩

theorem extends_addCallSite : Extends f (f.addCallSite a) :=
  ⟨by rw [signatures_addCallSite]; exact .refl .., callSites_addCallSite f a⟩

end Frontier

/-! ## what a walk can come to -/

section
variable (program : Program) (query : CallerQuery) (start : Address)

/-- The addresses that the walk from `start` can come to: its own, and those of the parameter lists
around the calls that are answered for such an address. -/
inductive Visits : Address → Prop where
  | start : Visits start
  | caller {a s : Address} {edges : List CallEdge} {e : CallEdge} : Visits a →
      query a = .ok edges → e ∈ edges → enclosingSignature program e = .ok (some s) → Visits s

def VisitedCall (e : CallEdge) : Prop :=
  ∃ a edges, Visits program query start a ∧ query a = .ok edges ∧ e ∈ edges

/-- The answers for these addresses depend on their places only. -/
def KeyOnly : Prop :=
  ∀ a b, Visits program query start a → Visits program query start b → a.key = b.key →
    query a = query b

/-- The places that the walk from `start` can come to: its own, and those of the parameter lists
around the calls that are answered for such a place. -/
inductive Reached : Key → Prop where
  | start : Reached start.key
  | caller {a s : Address} {edges : List CallEdge} {e : CallEdge} : Reached a.key →
      query a = .ok edges → e ∈ edges → enclosingSignature program e = .ok (some s) → Reached s.key

def ReachedCall (e : CallEdge) : Prop :=
  ∃ a edges, Reached program query start a.key ∧ query a = .ok edges ∧ e ∈ edges

/-- There is no answer for an address, or a call in the answer should stand in a declaration and
does not. -/
def Stuck (query : CallerQuery) (a : Address) : Prop :=
  (∃ f, query a = .error f) ∨
    ∃ edges, query a = .ok edges ∧ ∃ e ∈ edges, e.callerKind = .function ∧ e.site.signature? = none

end

theorem enclosingSignature_error (program : Program) (e : CallEdge) :
    (∃ f, enclosingSignature program e = .error f) ↔
      e.callerKind = .function ∧ e.site.signature? = none := by
  unfold enclosingSignature
  cases hk : e.callerKind with
  | function => cases hs : e.site.signature? <;> simp
  | packageInit => simp
  | detachedLiteral => simp

namespace Walk

/-! ## a list of calls -/

/-- What a list of calls does to a walk: nothing appears that the calls do not call for, and all of
that appears unless one of them fails. -/
structure Takes (program : Program) (edges : List CallEdge) (w w' : Walk) : Prop where
  visited : w'.visited = w.visited
  grows : w.frontier.Extends w'.frontier
  callSites : ∀ a ∈ w'.frontier.callSites, a ∈ w.frontier.callSites ∨ ∃ e ∈ edges, e.site = a
  signatures : ∀ a ∈ w'.frontier.signatures, a ∈ w.frontier.signatures ∨
    ∃ e ∈ edges, enclosingSignature program e = .ok (some a)
  pending : ∀ a ∈ w'.pending, a ∈ w.pending ∨
    ∃ e ∈ edges, enclosingSignature program e = .ok (some a)
  failed : w'.failure ≠ none → w.failure ≠ none ∨
    ∃ e ∈ edges, e.callerKind = .function ∧ e.site.signature? = none
  kept : ∀ a ∈ w.pending, a ∈ w'.pending
  taken : w'.failure = none → w.failure = none ∧ ∀ e ∈ edges,
    e.site.callKey ∈ w'.frontier.callKeys ∧
    ∃ o, enclosingSignature program e = .ok o ∧
      ∀ s, o = some s → s.key ∈ w'.frontier.signatureKeys ∧ s ∈ w'.pending

namespace Takes

variable {program : Program} {edges : List CallEdge} {e : CallEdge} {w w' w'' : Walk}

theorem nil (program : Program) (w : Walk) : Takes program [] w w where
  visited := rfl
  grows := .refl _
  callSites _ h := .inl h
  signatures _ h := .inl h
  pending _ h := .inl h
  failed h := .inl h
  kept _ h := h
  taken h := ⟨h, by simp⟩

theorem stop {f : Option Failure} (hne : f ≠ none) (hf : w.failure ≠ none ∨
    ∃ e ∈ edges, e.callerKind = .function ∧ e.site.signature? = none) :
    Takes program edges w { w with failure := f } where
  visited := rfl
  grows := .refl _
  callSites _ h := .inl h
  signatures _ h := .inl h
  pending _ h := .inl h
  failed _ := hf
  kept _ h := h
  taken h := absurd h hne

/-- What was there between two lists of calls was there before them or comes from the first one. -/
theorem before_or_append {edges' : List CallEdge} {P : CallEdge → Prop} {before between : Prop}
    (h : between ∨ ∃ e ∈ edges', P e) (hbetween : between → before ∨ ∃ e ∈ edges, P e) :
    before ∨ ∃ e ∈ edges ++ edges', P e := by
  rcases h with h | ⟨e, he, hP⟩
  · rcases hbetween h with h | ⟨e, he, hP⟩
    · exact .inl h
    · exact .inr ⟨e, List.mem_append_left _ he, hP⟩
  · exact .inr ⟨e, List.mem_append_right _ he, hP⟩

theorem append {edges' : List CallEdge} (h₁ : Takes program edges w w')
    (h₂ : Takes program edges' w' w'') : Takes program (edges ++ edges') w w'' where
  visited := h₂.visited.trans h₁.visited
  grows := h₁.grows.trans h₂.grows
  callSites a ha := before_or_append (h₂.callSites a ha) (h₁.callSites a)
  signatures a ha := before_or_append (h₂.signatures a ha) (h₁.signatures a)
  pending a ha := before_or_append (h₂.pending a ha) (h₁.pending a)
  failed h := before_or_append (h₂.failed h) h₁.failed
  kept a ha := h₂.kept a (h₁.kept a ha)
  taken h := by
    obtain ⟨hw', htaken'⟩ := h₂.taken h
    obtain ⟨hw, htaken⟩ := h₁.taken hw'
    refine ⟨hw, fun e he => ?_⟩
    rcases List.mem_append.mp he with he | he
    · obtain ⟨hc, o, ho, hs⟩ := htaken e he
      refine ⟨h₂.grows.mem_callKeys hc, o, ho, fun s hso => ?_⟩
      exact ⟨h₂.grows.mem_signatureKeys (hs s hso).1, h₂.kept s (hs s hso).2⟩
    · exact htaken' e he

end Takes

theorem takeEdge_takes (program : Program) (w : Walk) (e : CallEdge) :
    Takes program [e] w (w.takeEdge program e) := by
  unfold takeEdge
  split
  case isTrue hf =>
    -- a walk that has failed takes nothing in
    have hne : w.failure ≠ none := by intro h; rw [h] at hf; cases hf
    exact .stop hne (.inl hne)
  case isFalse hf =>
    have hnone : w.failure = none := by simpa using hf
    cases hs : enclosingSignature program e with
    | error f =>
      have hbad := (enclosingSignature_error program e).mp ⟨f, hs⟩
      exact .stop (by simp) (.inr ⟨e, List.mem_singleton_self e, hbad⟩)
    | ok o =>
      cases o with
      | none =>
        refine ⟨rfl, Frontier.extends_addCallSite .., ?_, ?_, fun _ h => .inl h, fun h => .inl h,
          fun _ h => h, fun _ => ⟨hnone, ?_⟩⟩
        · intro a ha
          rcases Frontier.mem_callSites_addCallSite _ _ ha with h | rfl
          · exact .inl h
          · exact .inr ⟨e, List.mem_singleton_self e, rfl⟩
        · intro a ha
          rw [Frontier.signatures_addCallSite] at ha
          exact .inl ha
        · intro e' he'
          rw [List.mem_singleton.mp he']
          exact ⟨(Frontier.mem_callKeys_addCallSite ..).mpr (.inr rfl), none, hs, by simp⟩
      | some s =>
        refine ⟨rfl, (Frontier.extends_addCallSite ..).trans (Frontier.extends_addSignature ..),
          ?_, ?_, ?_, fun h => .inl h, fun a ha => List.mem_cons_of_mem _ ha, fun _ => ⟨hnone, ?_⟩⟩
        · intro a ha
          rw [Frontier.callSites_addSignature] at ha
          rcases Frontier.mem_callSites_addCallSite _ _ ha with h | rfl
          · exact .inl h
          · exact .inr ⟨e, List.mem_singleton_self e, rfl⟩
        · intro a ha
          rcases Frontier.mem_signatures_addSignature _ _ ha with h | rfl
          · rw [Frontier.signatures_addCallSite] at h
            exact .inl h
          · exact .inr ⟨e, List.mem_singleton_self e, hs⟩
        · intro a ha
          rcases List.mem_cons.mp ha with rfl | ha
          · exact .inr ⟨e, List.mem_singleton_self e, hs⟩
          · exact .inl ha
        · intro e' he'
          rw [List.mem_singleton.mp he']
          refine ⟨?_, some s, hs, ?_⟩
          · simp only [Frontier.callKeys, Frontier.callSites_addSignature]
            exact (Frontier.mem_callKeys_addCallSite ..).mpr (.inr rfl)
          · rintro _ ⟨⟩
            exact ⟨(Frontier.mem_signatureKeys_addSignature ..).mpr (.inr rfl), List.mem_cons_self⟩

theorem takeEdges_takes (program : Program) (edges : List CallEdge) (w : Walk) :
    Takes program edges w (edges.foldl (takeEdge program) w) := by
  induction edges generalizing w with
  | nil => exact .nil program w
  | cons e edges ih => exact (takeEdge_takes program w e).append (ih _)

/-! ## the loop -/

theorem next_eq_none {program : Program} {query : CallerQuery} {w : Walk}
    (h : w.next program query = none) : w.failure ≠ none ∨ w.pending = [] := by
  unfold next at h
  cases hf : w.failure with
  | some f => exact .inl (by simp)
  | none =>
    cases hp : w.pending with
    | nil => exact .inr rfl
    | cons a rest => rw [hf, hp] at h; cases h

theorem next_eq_some {program : Program} {query : CallerQuery} {w w' : Walk}
    (h : w.next program query = some w') : w.failure = none ∧ ∃ a rest, w.pending = a :: rest ∧
      ((a.key ∈ w.visited ∧ w' = { w with pending := rest }) ∨
       (a.key ∉ w.visited ∧ w' = expand program query { w with pending := rest } a)) := by
  unfold next at h
  cases hf : w.failure with
  | some f => rw [hf] at h; cases h
  | none =>
    cases hp : w.pending with
    | nil => rw [hf, hp] at h; cases h
    | cons a rest =>
      rw [hf, hp] at h
      simp only [Option.some.injEq, List.contains_iff_mem] at h
      refine ⟨rfl, a, rest, rfl, ?_⟩
      split at h
      case isTrue hv => exact .inl ⟨hv, h.symm⟩
      case isFalse hv => exact .inr ⟨hv, h.symm⟩

section
variable (program : Program) (query : CallerQuery) (start : Address) (base : Frontier)

/-- Whatever a walk holds was reached from its start. -/
structure Sound (w : Walk) : Prop where
  pending : ∀ a ∈ w.pending, Visits program query start a
  visited : ∀ k ∈ w.visited, ∃ a, Visits program query start a ∧ a.key = k
  grows : base.Extends w.frontier
  callSites : ∀ a ∈ w.frontier.callSites,
    a ∈ base.callSites ∨ ∃ e, VisitedCall program query start e ∧ e.site = a
  signatures : ∀ a ∈ w.frontier.signatures, a ∈ base.signatures ∨
    ∃ e, VisitedCall program query start e ∧ enclosingSignature program e = .ok (some a)
  failed : w.failure ≠ none → ∃ a, Visits program query start a ∧ Stuck query a

/-- A call was taken in: it is in the frontier, and the walk goes on with the parameter list around
it or has visited it. -/
def Taken (w : Walk) (e : CallEdge) : Prop :=
  e.site.callKey ∈ w.frontier.callKeys ∧ ∃ o, enclosingSignature program e = .ok o ∧
    ∀ s, o = some s → s.key ∈ w.frontier.signatureKeys ∧
      (s.key ∈ w.visited ∨ ∃ b ∈ w.pending, b.key = s.key)

/-- The start is not forgotten, and the calls of what was visited were taken in. -/
structure Closed (w : Walk) : Prop where
  started : start.key ∈ w.visited ∨ ∃ b ∈ w.pending, b.key = start.key
  taken : ∀ k ∈ w.visited, ∃ a edges, Visits program query start a ∧ a.key = k ∧
    query a = .ok edges ∧ ∀ e ∈ edges, Taken program w e

end

section
variable {program : Program} {query : CallerQuery} {start : Address} {base : Frontier} {w w' : Walk}

theorem Sound.initial : Sound program query start base ⟨base, [], [start], none⟩ where
  pending a ha := by rw [List.mem_singleton.mp ha]; exact .start
  visited _ hk := absurd hk List.not_mem_nil
  grows := .refl base
  callSites _ ha := .inl ha
  signatures _ ha := .inl ha
  failed h := absurd rfl h

theorem Closed.initial : Closed program query start ⟨base, [], [start], none⟩ where
  started := .inr ⟨start, List.mem_singleton_self start, rfl⟩
  taken _ hk := absurd hk List.not_mem_nil

theorem Sound.expand (hw : Sound program query start base w) {a : Address}
    (ha : Visits program query start a) :
    Sound program query start base (w.expand program query a) := by
  have hvisited : ∀ k ∈ w.visited ++ [a.key], ∃ b, Visits program query start b ∧ b.key = k := by
    intro k hk
    rcases List.mem_append.mp hk with h | h
    · exact hw.visited k h
    · exact ⟨a, ha, (List.mem_singleton.mp h).symm⟩
  unfold Walk.expand
  cases hq : query a with
  | error f => exact { hw with visited := hvisited, failed := fun _ => ⟨a, ha, .inl ⟨f, hq⟩⟩ }
  | ok edges =>
    have ht := takeEdges_takes program edges { w with visited := w.visited ++ [a.key] }
    have hcall : ∀ e ∈ edges, VisitedCall program query start e := fun e he =>
      ⟨a, edges, ha, hq, he⟩
    refine ⟨?_, ?_, hw.grows.trans ht.grows, ?_, ?_, ?_⟩
    · intro b hb
      rcases ht.pending b hb with h | ⟨e, he, hs⟩
      · exact hw.pending b h
      · exact .caller ha hq he hs
    · rw [ht.visited]; exact hvisited
    · intro b hb
      rcases ht.callSites b hb with h | ⟨e, he, rfl⟩
      · exact hw.callSites b h
      · exact .inr ⟨e, hcall e he, rfl⟩
    · intro b hb
      rcases ht.signatures b hb with h | ⟨e, he, hs⟩
      · exact hw.signatures b h
      · exact .inr ⟨e, hcall e he, hs⟩
    · intro hf
      rcases ht.failed hf with h | hbad
      · exact hw.failed h
      · exact ⟨a, ha, .inr ⟨edges, hq, hbad⟩⟩

theorem Sound.next (hw : Sound program query start base w) (h : w.next program query = some w') :
    Sound program query start base w' := by
  obtain ⟨-, a, rest, hp, hcase⟩ := next_eq_some h
  have hrest : Sound program query start base { w with pending := rest } :=
    { hw with pending := fun b hb => hw.pending b (by rw [hp]; exact List.mem_cons_of_mem a hb) }
  rcases hcase with ⟨-, rfl⟩ | ⟨-, rfl⟩
  · exact hrest
  · exact hrest.expand (hw.pending a (by rw [hp]; exact List.mem_cons_self))

theorem Taken.mono {e : CallEdge} (h : Taken program w e)
    (hg : w.frontier.Extends w'.frontier) (hv : ∀ k ∈ w.visited, k ∈ w'.visited)
    (hp : ∀ b ∈ w.pending, b.key ∈ w'.visited ∨ b ∈ w'.pending) : Taken program w' e := by
  obtain ⟨hc, o, ho, hs⟩ := h
  refine ⟨hg.mem_callKeys hc, o, ho, fun s hso => ⟨hg.mem_signatureKeys (hs s hso).1, ?_⟩⟩
  rcases (hs s hso).2 with h | ⟨b, hb, hbs⟩
  · exact .inl (hv _ h)
  · rcases hp b hb with h | h
    · exact .inl (hbs ▸ h)
    · exact .inr ⟨b, h, hbs⟩

theorem Closed.mono (hw : Closed program query start w) (hg : w.frontier.Extends w'.frontier)
    (hv : ∀ k ∈ w.visited, k ∈ w'.visited)
    (hp : ∀ b ∈ w.pending, b.key ∈ w'.visited ∨ b ∈ w'.pending)
    (hnew : ∀ k ∈ w'.visited, k ∉ w.visited → ∃ a edges, Visits program query start a ∧ a.key = k ∧
      query a = .ok edges ∧ ∀ e ∈ edges, Taken program w' e) : Closed program query start w' where
  started := by
    rcases hw.started with h | ⟨b, hb, hbs⟩
    · exact .inl (hv _ h)
    · rcases hp b hb with h | h
      · exact .inl (hbs ▸ h)
      · exact .inr ⟨b, h, hbs⟩
  taken k hk := by
    by_cases hk' : k ∈ w.visited
    · obtain ⟨a, edges, ha, hak, hq, ht⟩ := hw.taken k hk'
      exact ⟨a, edges, ha, hak, hq, fun e he => (ht e he).mono hg hv hp⟩
    · exact hnew k hk hk'

theorem Closed.next (hw : Closed program query start w) (hs : Sound program query start base w)
    (h : w.next program query = some w') (hf : w'.failure = none) :
    Closed program query start w' := by
  obtain ⟨-, a, rest, hp, ⟨hv, rfl⟩ | ⟨-, rfl⟩⟩ := next_eq_some h
  · refine hw.mono (.refl _) (fun _ hk => hk) ?_ (fun k hk hk' => absurd hk hk')
    intro b hb
    rw [hp] at hb
    rcases List.mem_cons.mp hb with rfl | hb
    · exact .inl hv
    · exact .inr hb
  · unfold Walk.expand at hf ⊢
    cases hq : query a with
    | error f => rw [hq] at hf; cases hf
    | ok edges =>
      rw [hq] at hf
      have ht := takeEdges_takes program edges
        { w with pending := rest, visited := w.visited ++ [a.key] }
      refine hw.mono ht.grows ?_ ?_ ?_
      · intro k hk
        rw [ht.visited]
        exact List.mem_append_left _ hk
      · intro b hb
        rw [hp] at hb
        rcases List.mem_cons.mp hb with rfl | hb
        · rw [ht.visited]
          exact .inl (List.mem_append_right _ (List.mem_singleton_self _))
        · exact .inr (ht.kept b hb)
      · intro k hk hk'
        rw [ht.visited] at hk
        rcases List.mem_append.mp hk with h | h
        · exact absurd h hk'
        · have ha := hs.pending a (by rw [hp]; exact List.mem_cons_self)
          refine ⟨a, edges, ha, (List.mem_singleton.mp h).symm, hq, fun e he => ?_⟩
          obtain ⟨hc, o, ho, hs⟩ := (ht.taken hf).2 e he
          exact ⟨hc, o, ho, fun s hso => ⟨(hs s hso).1, .inr ⟨s, (hs s hso).2, rfl⟩⟩⟩

theorem visited_expand (program : Program) (query : CallerQuery) (w : Walk) (a : Address) :
    (w.expand program query a).visited = w.visited ++ [a.key] := by
  unfold Walk.expand
  cases hq : query a with
  | error f => rfl
  | ok edges =>
    exact (takeEdges_takes program edges { w with visited := w.visited ++ [a.key] }).visited

theorem run_of_none (h : w.next program query = none) : w.run program query = w := by
  rw [Walk.run, h]

theorem run_of_some (h : w.next program query = some w') :
    w.run program query = w'.run program query := by
  rw [Walk.run, h]

noncomputable def unvisited (hfin : {k | ∃ a, Visits program query start a ∧ a.key = k}.Finite)
    (w : Walk) : Finset Key :=
  hfin.toFinset.filter (· ∉ w.visited)

theorem card_unvisited_expand (hfin : {k | ∃ a, Visits program query start a ∧ a.key = k}.Finite)
    {a : Address} (ha : Visits program query start a) (hv : a.key ∉ w.visited) :
    (unvisited hfin (w.expand program query a)).card < (unvisited hfin w).card := by
  apply Finset.card_lt_card
  rw [Finset.ssubset_iff_of_subset]
  · refine ⟨a.key, ?_, ?_⟩
    · exact Finset.mem_filter.mpr ⟨hfin.mem_toFinset.mpr ⟨a, ha, rfl⟩, hv⟩
    · intro h
      apply (Finset.mem_filter.mp h).2
      rw [visited_expand]
      exact List.mem_append_right _ (List.mem_singleton_self _)
  · intro k hk
    obtain ⟨hr, hk⟩ := Finset.mem_filter.mp hk
    refine Finset.mem_filter.mpr ⟨hr, fun h => hk ?_⟩
    rw [visited_expand]
    exact List.mem_append_left _ h

/-- The address whose callers the next turn asks for; none for a turn that asks nothing. -/
def question? (w : Walk) : Option Address :=
  match w.failure, w.pending with
  | none, a :: _ => if w.visited.contains a.key then none else some a
  | _, _ => none

/-- The turns of a walk up to its end, with the addresses whose callers are asked for on the way. -/
inductive Runs (program : Program) (query : CallerQuery) : Walk → List Address → Walk → Prop where
  | ended {w : Walk} : w.next program query = none → Runs program query w [] w
  | turn {w w' w'' : Walk} {asked : List Address} : w.next program query = some w' →
      Runs program query w' asked w'' → Runs program query w (w.question?.toList ++ asked) w''

theorem Runs.run_eq {asked : List Address} (h : Runs program query w asked w') :
    w.run program query = w' := by
  induction h with
  | ended hn => exact run_of_none hn
  | turn hn _ ih => rw [run_of_some hn, ih]

/-- With finitely many places to come to the loop ends. A turn leaves fewer places unvisited, or as
many and a shorter list of pending functions. -/
theorem exists_runs (hfin : {k | ∃ a, Visits program query start a ∧ a.key = k}.Finite) (w : Walk)
    (hs : Sound program query start base w) : ∃ asked w', Runs program query w asked w' := by
  rcases hn : w.next program query with _ | w'
  · exact ⟨[], w, .ended hn⟩
  · obtain ⟨asked, w'', hruns⟩ := exists_runs hfin w' (hs.next hn)
    exact ⟨_, w'', .turn hn hruns⟩
termination_by ((unvisited hfin w).card, w.pending.length)
decreasing_by
  obtain ⟨-, a, rest, hp, ⟨-, rfl⟩ | ⟨hv, rfl⟩⟩ := next_eq_some hn
  · refine Prod.Lex.right _ ?_
    rw [hp]
    exact Nat.lt_succ_self _
  · refine Prod.Lex.left _ _ ?_
    have ha := hs.pending a (by rw [hp]; exact List.mem_cons_self)
    exact card_unvisited_expand hfin ha hv

theorem run_ends (hfin : {k | ∃ a, Visits program query start a ∧ a.key = k}.Finite) (w : Walk)
    (hs : Sound program query start base w)
    (hc : w.failure = none → Closed program query start w) :
    Sound program query start base (w.run program query) ∧
      ((w.run program query).failure = none → Closed program query start (w.run program query)) ∧
      (w.run program query).next program query = none := by
  obtain ⟨asked, w', hruns⟩ := exists_runs hfin w hs
  rw [hruns.run_eq]
  induction hruns with
  | ended hn => exact ⟨hs, hc, hn⟩
  | turn hn _ ih => exact ih (hs.next hn) ((hc (next_eq_some hn).1).next hs hn)

end

end Walk

/-! ## the closure law -/

section
variable {program : Program} {query : CallerQuery} {start : Address}

theorem Walk.Closed.visited {w : Walk} (hw : w.Closed program query start) (hp : w.pending = [])
    (hkey : KeyOnly program query start) {a : Address} (ha : Visits program query start a) :
    a.key ∈ w.visited := by
  induction ha with
  | start =>
    rcases hw.started with h | ⟨b, hb, -⟩
    · exact h
    · rw [hp] at hb; cases hb
  | caller ha hq he hs ih =>
    obtain ⟨a', edges', ha', hkey', hq', ht⟩ := hw.taken _ ih
    rw [hkey a' _ ha' ha hkey', hq] at hq'
    cases hq'
    obtain ⟨-, o, ho, hv⟩ := ht _ he
    rw [hs] at ho
    cases ho
    rcases (hv _ rfl).2 with h | ⟨b, hb, -⟩
    · exact h
    · rw [hp] at hb; cases hb

theorem Walk.Closed.visitedCall {w : Walk} (hw : w.Closed program query start)
    (hp : w.pending = []) (hkey : KeyOnly program query start)
    {e : CallEdge} (he : VisitedCall program query start e) : w.Taken program e := by
  obtain ⟨a, edges, ha, hq, he⟩ := he
  obtain ⟨a', edges', ha', hkey', hq', ht⟩ := hw.taken _ (hw.visited hp hkey ha)
  rw [hkey a' a ha' ha hkey', hq] at hq'
  cases hq'
  exact ht e he

/-- What a walk from `start` makes of a frontier. -/
structure Walk.Threads (program : Program) (query : CallerQuery) (start : Address)
    (base : Frontier) (w : Walk) : Prop where
  failure : w.failure ≠ none ↔ ∃ a, Visits program query start a ∧ Stuck query a
  grows : base.Extends w.frontier
  callSites : ∀ a ∈ w.frontier.callSites,
    a ∈ base.callSites ∨ ∃ e, VisitedCall program query start e ∧ e.site = a
  signatures : ∀ a ∈ w.frontier.signatures, a ∈ base.signatures ∨
    ∃ e, VisitedCall program query start e ∧ enclosingSignature program e = .ok (some a)
  taken : w.failure = none → ∀ e, VisitedCall program query start e →
    e.site.callKey ∈ w.frontier.callKeys ∧ ∀ s, enclosingSignature program e = .ok (some s) →
      s.key ∈ w.frontier.signatureKeys

theorem Walk.Threads.callKeys {base : Frontier} {w : Walk} (h : w.Threads program query start base)
    (hf : w.failure = none) (k : Key) : k ∈ w.frontier.callKeys ↔
      k ∈ base.callKeys ∨ ∃ e, VisitedCall program query start e ∧ e.site.callKey = k := by
  constructor
  · intro hk
    obtain ⟨a, ha, rfl⟩ := List.mem_map.mp hk
    rcases h.callSites a ha with hbase | ⟨e, he, rfl⟩
    · exact .inl (List.mem_map_of_mem hbase)
    · exact .inr ⟨e, he, rfl⟩
  · rintro (hk | ⟨e, he, rfl⟩)
    · exact h.grows.mem_callKeys hk
    · exact (h.taken hf e he).1

theorem Walk.Threads.signatureKeys {base : Frontier} {w : Walk}
    (h : w.Threads program query start base) (hf : w.failure = none) (k : Key) :
    k ∈ w.frontier.signatureKeys ↔ k ∈ base.signatureKeys ∨
      ∃ e, VisitedCall program query start e ∧
        ∃ s, enclosingSignature program e = .ok (some s) ∧ s.key = k := by
  constructor
  · intro hk
    obtain ⟨a, ha, rfl⟩ := List.mem_map.mp hk
    rcases h.signatures a ha with hbase | ⟨e, he, hs⟩
    · exact .inl (List.mem_map_of_mem hbase)
    · exact .inr ⟨e, he, a, hs, rfl⟩
  · rintro (hk | ⟨e, he, s, hs, rfl⟩)
    · exact h.grows.mem_signatureKeys hk
    · exact (h.taken hf e he).2 s hs

theorem propagateInto_threads (hkey : KeyOnly program query start)
    (hfin : {k | ∃ a, Visits program query start a ∧ a.key = k}.Finite) (base : Frontier) :
    (propagateInto program query start base).Threads program query start base := by
  have hinit : Walk.Sound program query start base ⟨base, [], [start], none⟩ := .initial
  obtain ⟨hs, hc, hend⟩ := Walk.run_ends hfin _ hinit fun _ => .initial
  change Walk.Sound program query start base (propagateInto program query start base) at hs
  change (propagateInto program query start base).failure = none →
    (propagateInto program query start base).Closed program query start at hc
  change (propagateInto program query start base).next program query = none at hend
  generalize propagateInto program query start base = w at hs hc hend
  have hp : w.failure = none → w.pending = [] := fun h =>
    (Walk.next_eq_none hend).resolve_left fun h' => h' h
  refine ⟨⟨hs.failed, ?_⟩, hs.grows, hs.callSites, hs.signatures, ?_⟩
  · -- a walk without failure has an answer for every reached place
    rintro ⟨a, ha, hstuck⟩ hf
    obtain ⟨a', edges, ha', hkey', hq, ht⟩ := (hc hf).taken _ ((hc hf).visited (hp hf) hkey ha)
    rw [hkey a' a ha' ha hkey'] at hq
    rcases hstuck with ⟨f, hq'⟩ | ⟨edges', hq', e, he, hbad⟩
    · rw [hq'] at hq; cases hq
    · rw [hq'] at hq
      cases hq
      obtain ⟨-, o, ho, -⟩ := ht e he
      obtain ⟨f, hf'⟩ := (enclosingSignature_error program e).mpr hbad
      rw [hf'] at ho
      cases ho
  · intro hf e he
    obtain ⟨hcall, o, ho, hv⟩ := (hc hf).visitedCall (hp hf) hkey he
    refine ⟨hcall, fun s hes => ?_⟩
    rw [hes] at ho
    cases ho
    exact (hv s rfl).1

end

/-! ## places -/

section
variable {program : Program} {query : CallerQuery} {start : Address}
  (hkey : ∀ a b : Address, a.key = b.key → query a = query b)
include hkey

/-- Where answers depend on places only, the walk can come to every address of a reached place or to
one that is as good. -/
theorem reached_iff {k : Key} :
    Reached program query start k ↔ ∃ a, Visits program query start a ∧ a.key = k := by
  constructor
  · intro h
    induction h with
    | start => exact ⟨start, .start, rfl⟩
    | caller _ hq he hs ih =>
      obtain ⟨a', ha', hk⟩ := ih
      exact ⟨_, .caller ha' ((hkey a' _ hk).trans hq) he hs, rfl⟩
  · rintro ⟨a, ha, rfl⟩
    induction ha with
    | start => exact .start
    | caller _ hq he hs ih => exact .caller ih hq he hs

theorem reachedCall_iff {e : CallEdge} :
    ReachedCall program query start e ↔ VisitedCall program query start e := by
  constructor
  · rintro ⟨a, edges, ha, hq, he⟩
    obtain ⟨a', ha', hk⟩ := (reached_iff hkey).mp ha
    exact ⟨a', edges, ha', (hkey a' a hk).trans hq, he⟩
  · rintro ⟨a, edges, ha, hq, he⟩
    exact ⟨a, edges, (reached_iff hkey).mpr ⟨a, ha, rfl⟩, hq, he⟩

theorem reached_stuck_iff : (∃ a, Reached program query start a.key ∧ Stuck query a) ↔
    ∃ a, Visits program query start a ∧ Stuck query a := by
  constructor
  · rintro ⟨a, ha, hstuck⟩
    obtain ⟨a', ha', hk⟩ := (reached_iff hkey).mp ha
    rw [Stuck, ← hkey a' a hk] at hstuck
    exact ⟨a', ha', hstuck⟩
  · rintro ⟨a, ha, hstuck⟩
    exact ⟨a, (reached_iff hkey).mpr ⟨a, ha, rfl⟩, hstuck⟩

end

/-- Walking from one function adds to a frontier exactly the calls and the parameter lists that are
reached from it, behind what was there. So a second walk from there adds nothing, and of two walks
either may come first. -/
theorem propagateInto_exact (program : Program) (query : CallerQuery)
    (hkey : ∀ a b : Address, a.key = b.key → query a = query b) (start : Address)
    (base : Frontier) (hfin : {k | Reached program query start k}.Finite) :
    let w := propagateInto program query start base
    (w.failure ≠ none ↔ ∃ a, Reached program query start a.key ∧ Stuck query a) ∧
    (w.failure = none →
      (∀ k, k ∈ w.frontier.callKeys ↔
        k ∈ base.callKeys ∨ ∃ e, ReachedCall program query start e ∧ e.site.callKey = k) ∧
      (∀ k, k ∈ w.frontier.signatureKeys ↔ k ∈ base.signatureKeys ∨
        ∃ e, ReachedCall program query start e ∧
          ∃ s, enclosingSignature program e = .ok (some s) ∧ s.key = k)) ∧
    base.Extends w.frontier ∧
    (w.failure = none → (propagateInto program query start w.frontier).failure = none ∧
      (propagateInto program query start w.frontier).frontier = w.frontier) ∧
    (∀ other, {k | Reached program query other k}.Finite →
      let v := propagateInto program query other base
      let wv := propagateInto program query other w.frontier
      let vw := propagateInto program query start v.frontier
      ((w.failure ≠ none ∨ wv.failure ≠ none) ↔ (v.failure ≠ none ∨ vw.failure ≠ none)) ∧
      (w.failure = none → wv.failure = none →
        (∀ k, k ∈ wv.frontier.callKeys ↔ k ∈ vw.frontier.callKeys) ∧
        (∀ k, k ∈ wv.frontier.signatureKeys ↔ k ∈ vw.frontier.signatureKeys))) := by
  have hthreads : ∀ s, {k | Reached program query s k}.Finite → ∀ f,
      (propagateInto program query s f).Threads program query s f := by
    intro s hs
    simp only [reached_iff hkey] at hs
    exact propagateInto_threads (fun a b _ _ => hkey a b) hs
  simp -zeta only [reached_stuck_iff hkey, reachedCall_iff hkey]
  intro w
  have hw : w.Threads program query start base := hthreads start hfin base
  refine ⟨hw.failure, fun hf => ⟨hw.callKeys hf, hw.signatureKeys hf⟩, hw.grows, ?_, ?_⟩
  · intro hf
    have hagain := hthreads start hfin w.frontier
    have hf' : (propagateInto program query start w.frontier).failure = none := by
      by_contra h
      exact hw.failure.mpr (hagain.failure.mp h) hf
    refine ⟨hf', hagain.grows.eq_of_keys (fun k hk => ?_) (fun k hk => ?_)⟩
    · rcases (hagain.signatureKeys hf' k).mp hk with h | h
      · exact h
      · exact (hw.signatureKeys hf k).mpr (.inr h)
    · rcases (hagain.callKeys hf' k).mp hk with h | h
      · exact h
      · exact (hw.callKeys hf k).mpr (.inr h)
  · intro other hfin' v wv vw
    have hv : v.Threads program query other base := hthreads other hfin' base
    have hwv : wv.Threads program query other w.frontier := hthreads other hfin' _
    have hvw : vw.Threads program query start v.frontier := hthreads start hfin _
    refine ⟨?_, fun hf hf' => ?_⟩
    · rw [hw.failure, hwv.failure, hv.failure, hvw.failure]
      exact or_comm
    · have hfv : v.failure = none := by
        by_contra h
        exact hwv.failure.mpr (hv.failure.mp h) hf'
      have hfvw : vw.failure = none := by
        by_contra h
        exact hw.failure.mpr (hvw.failure.mp h) hf
      refine ⟨fun k => ?_, fun k => ?_⟩
      · rw [hwv.callKeys hf', hw.callKeys hf, hvw.callKeys hfvw, hv.callKeys hfv]
        exact or_right_comm
      · rw [hwv.signatureKeys hf', hw.signatureKeys hf, hvw.signatureKeys hfvw,
          hv.signatureKeys hfv]
        exact or_right_comm

def mutualSite (offset : Nat) : Address :=
  let list := Node.mk .parameterList (some .parameters) (offset + 6) (offset + 8) []
  let call := Node.mk .callExpression none (offset + 9) (offset + 12) []
  ⟨0, offset + 9, offset + 12,
    [call, .mk .functionDeclaration none offset (offset + 13) [list, call]], true⟩

/-- Two functions, declared at 0 and at 20, that call each other. -/
def mutualQuery : CallerQuery := fun a =>
  if a.key = ⟨0, 6⟩ then .ok [⟨3, .function, 2, mutualSite 20⟩]
  else if a.key = ⟨0, 26⟩ then .ok [⟨2, .function, 3, mutualSite 0⟩]
  else .ok []

def mutualStart : Address := ⟨0, 6, 8, [], true⟩

theorem mutualQuery_mem {a : Address} {edges : List CallEdge} {e : CallEdge}
    (hq : mutualQuery a = .ok edges) (he : e ∈ edges) :
    e.callerKind = .function ∧ (e.site = mutualSite 20 ∨ e.site = mutualSite 0) := by
  unfold mutualQuery at hq
  split at hq
  · cases hq
    rw [List.mem_singleton.mp he]
    exact ⟨rfl, .inl rfl⟩
  · split at hq
    · cases hq
      rw [List.mem_singleton.mp he]
      exact ⟨rfl, .inr rfl⟩
    · cases hq
      cases he

theorem mutual_finite : {k | Reached ⟨[], []⟩ mutualQuery mutualStart k}.Finite := by
  apply Set.Finite.subset (Set.toFinite {⟨0, 6⟩, ⟨0, 26⟩})
  intro k hk
  induction hk with
  | start => exact .inl rfl
  | caller _ hq he hs =>
    obtain ⟨hkind, hsite⟩ := mutualQuery_mem hq he
    unfold enclosingSignature at hs
    rw [hkind] at hs
    rcases hsite with h | h
    · rw [h] at hs
      cases hs
      exact .inr rfl
    · rw [h] at hs
      cases hs
      exact .inl rfl

/-- Of two functions that call each other, the walk from the first comes back to it. -/
theorem propagateInto_mutual :
    (∀ a b : Address, a.key = b.key → mutualQuery a = mutualQuery b) ∧
    {k | Reached ⟨[], []⟩ mutualQuery mutualStart k}.Finite ∧
    (propagateInto ⟨[], []⟩ mutualQuery mutualStart .empty).failure = none ∧
    ⟨0, 6⟩ ∈ (propagateInto ⟨[], []⟩ mutualQuery mutualStart .empty).frontier.signatureKeys := by
  have hkey : ∀ a b : Address, a.key = b.key → mutualQuery a = mutualQuery b := by
    intro a b h
    unfold mutualQuery
    rw [h]
  obtain ⟨hfail, hkeys, -⟩ :=
    propagateInto_exact ⟨[], []⟩ mutualQuery hkey mutualStart .empty mutual_finite
  have hf : (propagateInto ⟨[], []⟩ mutualQuery mutualStart .empty).failure = none := by
    by_contra h
    obtain ⟨a, -, ⟨f, hq⟩ | ⟨edges, hq, e, he, -, hs⟩⟩ := hfail.mp h
    · unfold mutualQuery at hq
      split at hq
      · cases hq
      · split at hq <;> cases hq
    · rcases (mutualQuery_mem hq he).2 with h | h <;> (rw [h] at hs; cases hs)
  refine ⟨hkey, mutual_finite, hf, ((hkeys hf).2 ⟨0, 6⟩).mpr (.inr ?_)⟩
  -- the second function is reached by its call of the first
  have h₂ : Reached ⟨[], []⟩ mutualQuery mutualStart (Address.key ⟨0, 26, 28, [], true⟩) :=
    .caller (s := ((mutualSite 20).signature?).get rfl) (.start) rfl (List.mem_singleton_self _) rfl
  exact ⟨_, ⟨_, _, h₂, rfl, List.mem_singleton_self _⟩, _, rfl, rfl⟩

end ParamThreading
