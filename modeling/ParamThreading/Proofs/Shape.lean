import ParamThreading.Proofs.Reading
import ParamThreading.Proofs.Tree

/-!
# What nodes are made of

A node that is read is a leaf, or its children were read by the rule of one of the forms of the
grammar; so what a node looks like can be read off the forms of its kind.

* `Rule.Checks`, `Rule.Reads.checked`  what a check of rules says of the nodes they yield;
* `Rule.isBare`, `Rule.holdsBare`  nodes without a role;
* `Rule.Made`  a node as a grammar makes it;
* `Rule.Reads.made`  all nodes of what is read are so made;
* `Rule.Reads.kinds`, `Rule.Reads.of_isFlat`  what the outermost nodes are;
* `Rule.reads_seq` and others  what composite rules read.
-/

namespace ParamThreading

namespace Rule

variable {σ : Type} {grammar : σ → Rule σ} {bare : σ → Bool} {among : σ → Prop}

/-! ## checks of rules -/

/-- A check of rules that looks at their parts and at all rules of the grammar, with what it says of
the nodes that a rule makes. -/
structure Checks (grammar : σ → Rule σ) (check : Rule σ → Bool) (P : Node → Prop) : Prop where
  symbols : ∀ s, check (grammar s) = true
  seq : ∀ a b, check (.seq a b) = (check a && check b)
  alt : ∀ a b, check (.alt a b) = (check a && check b)
  hold : ∀ a b, check (.hold a b) = (check a && check b)
  many : ∀ r, check (.many r) = check r
  wide : ∀ n r, check (.wide n r) = check r
  extend : ∀ r, check (.extend r) = check r
  token : ∀ t a b, check (.token t) = true → P (.mk .token none a b [])
  leaf : ∀ k t a b, check (.leaf k t) = true → P (.mk k none a b [])
  lineEnd : ∀ a b, check .lineEnd = true → P (.mk .token none a b [])
  node : ∀ k r xs, check (.node k r) = true → P (.spanning k xs)
  label : ∀ {role r h ts xs rest}, check (.label role r) = true → Reads grammar r h ts xs rest →
    (check r = true → ∀ x ∈ xs, P x) → ∀ x ∈ xs, P (if x.role.isNone then x.withRole role else x)

/-- What is checked of a rule holds of the nodes that it yields. -/
theorem Reads.checked {check : Rule σ → Bool} {P : Node → Prop} (hc : Checks grammar check P)
    {r : Rule σ} {h : Option Node} {ts rest : List Token} {xs : List Node}
    (hread : Reads grammar r h ts xs rest) (hr : check r = true) (hh : ∀ x, h = some x → P x) :
    ∀ x ∈ xs, P x := by
  induction hread with
  | empty | onLine | finish | none | ahead | notAhead => exact nofun
  | token => exact List.forall_mem_singleton.mpr (hc.token _ _ _ hr)
  | leaf => exact List.forall_mem_singleton.mpr (hc.leaf _ _ _ _ hr)
  | lineBreak => exact List.forall_mem_singleton.mpr (hc.lineEnd _ _ hr)
  | node => exact List.forall_mem_singleton.mpr (hc.node _ _ _ hr)
  | ref _ ih => exact ih (hc.symbols _) hh
  | seq _ _ ih₁ ih₂ =>
    obtain ⟨h₁, h₂⟩ := Bool.and_eq_true_iff.mp ((hc.seq ..).symm.trans hr)
    exact fun x hx => (List.mem_append.mp hx).elim (ih₁ h₁ hh x) (ih₂ h₂ hh x)
  | first _ ih => exact ih (Bool.and_eq_true_iff.mp ((hc.alt ..).symm.trans hr)).1 hh
  | second _ ih => exact ih (Bool.and_eq_true_iff.mp ((hc.alt ..).symm.trans hr)).2 hh
  | more _ _ ih₁ ih₂ =>
    have h₁ := (hc.many _).symm.trans hr
    exact fun x hx => (List.mem_append.mp hx).elim (ih₁ h₁ hh x) (ih₂ hr hh x)
  | wide _ ih => exact ih ((hc.wide ..).symm.trans hr) hh
  | label hread ih =>
    intro y hy
    obtain ⟨x, hx, rfl⟩ := List.mem_map.mp hy
    exact hc.label hr hread (fun hr => ih hr hh) x hx
  | hold _ _ ih₁ ih₂ =>
    obtain ⟨h₁, h₂⟩ := Bool.and_eq_true_iff.mp ((hc.hold ..).symm.trans hr)
    refine ih₂ h₂ fun y hy => ?_
    cases hy
    exact ih₁ h₁ hh _ (List.mem_singleton_self _)
  | held | extended => exact List.forall_mem_singleton.mpr (hh _ rfl)
  | extend _ _ ih₁ ih₂ =>
    refine ih₂ hr fun y hy => ?_
    cases hy
    exact ih₁ ((hc.extend _).symm.trans hr) hh _ (List.mem_singleton_self _)

/-! ## kinds of nodes -/

/-- What the rule yields or holds is of certain kinds, given that it is so for symbols. -/
def yields (p : Kind → Bool) : Rule σ → Bool
  | .token _ | .lineEnd => p .token
  | .leaf k _ | .node k _ => p k
  | .seq a b | .alt a b | .hold a b => yields p a && yields p b
  | .many r | .wide _ r | .label _ r | .extend r => yields p r
  | _ => true

theorem checks_yields {p : Kind → Bool} (hg : ∀ s, (grammar s).yields p = true) :
    Checks grammar (yields p) (p ·.kind = true) where
  symbols := hg
  seq _ _ := rfl
  alt _ _ := rfl
  hold _ _ := rfl
  many _ := rfl
  wide _ _ := rfl
  extend _ := rfl
  token _ _ _ := id
  leaf _ _ _ _ := id
  lineEnd _ _ := id
  node _ _ _ := id
  label hr _ hxs x hx := by
    by_cases hrole : x.role.isNone = true
    · rw [if_pos hrole, Node.kind_withRole]
      exact hxs hr x hx
    · rw [if_neg hrole]
      exact hxs hr x hx

theorem Reads.kinds {p : Kind → Bool} (hg : ∀ s, (grammar s).yields p = true) {r : Rule σ}
    {h : Option Node} {ts rest : List Token} {xs : List Node} (hread : Reads grammar r h ts xs rest)
    (hr : r.yields p = true) (hh : ∀ x, h = some x → p x.kind = true) :
    ∀ x ∈ xs, p x.kind = true :=
  hread.checked (checks_yields hg) hr hh

/-! ## nodes without a role -/

/-- What the rule yields has no role, given which symbols are so. -/
def isBare (bare : σ → Bool) : Rule σ → Bool
  | .label _ _ => false
  | .ref s => bare s
  | .seq a b | .alt a b => isBare bare a && isBare bare b
  | .hold _ r | .many r | .wide _ r => isBare bare r
  | _ => true

/-- What the rule holds has no role and covers some text. -/
def holdsBare (bare : σ → Bool) : Rule σ → Bool
  | .hold a b => isBare bare a && yields Kind.isSolid a && (holdsBare bare a && holdsBare bare b)
  | .extend r => isBare bare r && yields Kind.isSolid r && holdsBare bare r
  | .seq a b | .alt a b => holdsBare bare a && holdsBare bare b
  | .many r | .wide _ r | .label _ r | .node _ r => holdsBare bare r
  | _ => true

/-- A grammar whose rules yield nodes that cover some text, and hold them before they get a role. -/
structure Bare (grammar : σ → Rule σ) (bare : σ → Bool) : Prop where
  holdsBare : ∀ s, (grammar s).holdsBare bare = true
  isBare : ∀ s, bare s = true → (grammar s).isBare bare = true
  yields : ∀ s, (grammar s).yields Kind.isSolid = true

/-! ## nodes by the forms of a grammar -/

/-- A node as symbols of a grammar make it: a leaf, or a node around what the rule of a form read.
-/
inductive Made (grammar : σ → Rule σ) (among : σ → Prop) (n : Node) : Prop where
  | leaf : n.children = [] → n.kind = .token ∨ (∃ s, among s ∧ n.kind ∈ (grammar s).leaves) →
      Made grammar among n
  | form {s : σ} {r : Rule σ} {h : Option Node} {ts rest : List Token} : among s →
      (n.kind, r) ∈ (grammar s).forms →
      (∀ x, h = some x → x.role = none ∧ x.kind.isSolid = true) →
      Reads grammar r h ts n.children rest → Made grammar among n

theorem Made.withRole {n : Node} {role : Role} (h : Made grammar among n) :
    Made grammar among (n.withRole role) := by
  cases n with
  | mk k r a b cs =>
    cases h with
    | leaf hc hk => exact .leaf hc hk
    | form hs hf hh hr => exact .form hs hf hh hr

theorem forall_all_giveRole {P : Node → Prop}
    (hP : ∀ {n : Node} {role : Role}, P n → P (n.withRole role))
    {xs : List Node} {role : Role} (h : ∀ x ∈ xs, x.All P) : ∀ x ∈ giveRole role xs, x.All P := by
  intro y hy
  obtain ⟨x, hx, rfl⟩ := List.mem_map.mp hy
  by_cases hrole : x.role.isNone = true
  · obtain ⟨hself, hchildren⟩ := Node.all_iff.mp (h x hx)
    rw [if_pos hrole]
    exact Node.all_iff.mpr ⟨hP hself, by rw [Node.children_withRole]; exact hchildren⟩
  · rw [if_neg hrole]
    exact h x hx

/-- The forms and leaves of a rule are those of some symbols, it refers to such symbols only, and it
holds only nodes without a role. -/
structure Known (grammar : σ → Rule σ) (bare : σ → Bool) (among : σ → Prop) (r : Rule σ) :
    Prop where
  forms : ∀ p ∈ r.forms, ∃ s, among s ∧ p ∈ (grammar s).forms
  leaves : ∀ k ∈ r.leaves, ∃ s, among s ∧ k ∈ (grammar s).leaves
  refs : ∀ s ∈ r.refs, among s
  holdsBare : r.holdsBare bare = true

namespace Known

variable {a b r : Rule σ}

theorem mono (h : Known grammar bare among r) (hf : a.forms ⊆ r.forms) (hl : a.leaves ⊆ r.leaves)
    (hs : a.refs ⊆ r.refs) (hb : a.holdsBare bare = true) : Known grammar bare among a :=
  ⟨fun p hp => h.forms p (hf hp), fun k hk => h.leaves k (hl hk), fun s hs' => h.refs s (hs hs'),
    hb⟩

theorem seq (h : Known grammar bare among (.seq a b)) :
    Known grammar bare among a ∧ Known grammar bare among b := by
  obtain ⟨ha, hb⟩ := Bool.and_eq_true_iff.mp h.holdsBare
  exact ⟨h.mono (List.subset_append_left ..) (List.subset_append_left ..)
      (List.subset_append_left ..) ha,
    h.mono (List.subset_append_right ..) (List.subset_append_right ..)
      (List.subset_append_right ..) hb⟩

theorem alt (h : Known grammar bare among (.alt a b)) :
    Known grammar bare among a ∧ Known grammar bare among b :=
  Known.seq ⟨h.forms, h.leaves, h.refs, h.holdsBare⟩

theorem hold (h : Known grammar bare among (.hold a b)) : Known grammar bare among a ∧
    Known grammar bare among b ∧ a.isBare bare = true ∧ a.yields Kind.isSolid = true := by
  obtain ⟨hbase, hparts⟩ := Bool.and_eq_true_iff.mp h.holdsBare
  obtain ⟨hbare, hsolid⟩ := Bool.and_eq_true_iff.mp hbase
  have hseq : Known grammar bare among (.seq a b) := ⟨h.forms, h.leaves, h.refs, hparts⟩
  exact ⟨hseq.seq.1, hseq.seq.2, hbare, hsolid⟩

theorem extend (h : Known grammar bare among (.extend r)) :
    Known grammar bare among r ∧ r.isBare bare = true ∧ r.yields Kind.isSolid = true := by
  obtain ⟨hbase, hstep⟩ := Bool.and_eq_true_iff.mp h.holdsBare
  obtain ⟨hbare, hsolid⟩ := Bool.and_eq_true_iff.mp hbase
  exact ⟨⟨h.forms, h.leaves, h.refs, hstep⟩, hbare, hsolid⟩

theorem node {k : Kind} (h : Known grammar bare among (.node k r)) :
    Known grammar bare among r ∧ ∃ s, among s ∧ (k, r) ∈ (grammar s).forms :=
  ⟨h.mono (List.subset_cons_self ..) (List.Subset.refl _) (List.Subset.refl _) h.holdsBare,
    h.forms _ List.mem_cons_self⟩

end Known

theorem bare_giveRole_singleton {x : Node} (role : Role) (h : x.role = none) :
    giveRole role [x] = [x.withRole role] := by
  simp [giveRole, h]

/-- Every node of what is read is made by the grammar, and has no role if the rule gives none. -/
theorem Reads.made (hg : Bare grammar bare)
    (hamong : ∀ s, among s → ∀ s' ∈ (grammar s).refs, among s') {r : Rule σ} {h : Option Node}
    {ts rest : List Token} {xs : List Node} (hread : Reads grammar r h ts xs rest)
    (hr : Known grammar bare among r)
    (hh : ∀ x, h = some x → (x.role = .none ∧ x.kind.isSolid = true) ∧ x.All (Made grammar among)) :
    (∀ x ∈ xs, x.All (Made grammar among)) ∧ (r.isBare bare = true → ∀ x ∈ xs, x.role = .none) := by
  induction hread with
  | empty | onLine | finish | none | ahead | notAhead => exact ⟨nofun, nofun⟩
  | token ht =>
    exact ⟨Node.forall_all_leaf (.leaf rfl (.inl rfl)),
      fun _ x hx => by rw [List.mem_singleton.mp hx]; rfl⟩
  | leaf ht =>
    exact ⟨Node.forall_all_leaf (.leaf rfl (.inr (hr.leaves _ (List.mem_singleton_self _)))),
      fun _ x hx => by rw [List.mem_singleton.mp hx]; rfl⟩
  | lineBreak hb =>
    exact ⟨Node.forall_all_leaf (.leaf rfl (.inl rfl)),
      fun _ x hx => by rw [List.mem_singleton.mp hx]; rfl⟩
  | @ref _ _ _ _ s _ ih =>
    have hs := hr.refs s (List.mem_singleton_self s)
    exact (ih ⟨fun _ h => ⟨s, hs, h⟩, fun _ h => ⟨s, hs, h⟩, hamong s hs, hg.holdsBare s⟩ hh).imp id
      fun h e => h (hg.isBare s e)
  | seq _ _ ih₁ ih₂ =>
    obtain ⟨h₁, h₁'⟩ := ih₁ hr.seq.1 hh
    obtain ⟨h₂, h₂'⟩ := ih₂ hr.seq.2 hh
    refine ⟨fun x hx => (List.mem_append.mp hx).elim (h₁ x) (h₂ x), fun e x hx => ?_⟩
    obtain ⟨e₁, e₂⟩ := Bool.and_eq_true_iff.mp e
    exact (List.mem_append.mp hx).elim (h₁' e₁ x) (h₂' e₂ x)
  | first _ ih => exact (ih hr.alt.1 hh).imp id fun h e => h (Bool.and_eq_true_iff.mp e).1
  | second _ ih => exact (ih hr.alt.2 hh).imp id fun h e => h (Bool.and_eq_true_iff.mp e).2
  | more _ _ ih₁ ih₂ =>
    obtain ⟨h₁, h₁'⟩ := ih₁ ⟨hr.forms, hr.leaves, hr.refs, hr.holdsBare⟩ hh
    obtain ⟨h₂, h₂'⟩ := ih₂ hr hh
    exact ⟨fun x hx => (List.mem_append.mp hx).elim (h₁ x) (h₂ x),
      fun e x hx => (List.mem_append.mp hx).elim (h₁' e x) (h₂' e x)⟩
  | wide _ ih => exact ih ⟨hr.forms, hr.leaves, hr.refs, hr.holdsBare⟩ hh
  | @node h ts rest xs k r hread ih =>
    obtain ⟨s, hs, hform⟩ := hr.node.2
    obtain ⟨hmade, -⟩ := ih hr.node.1 hh
    refine ⟨fun x hx => ?_, fun _ x hx => by rw [List.mem_singleton.mp hx]; rfl⟩
    rw [List.mem_singleton.mp hx]
    exact Node.all_iff.mpr ⟨.form hs hform (fun y hy => (hh y hy).1) hread, hmade⟩
  | label _ ih =>
    exact ⟨forall_all_giveRole Made.withRole (ih ⟨hr.forms, hr.leaves, hr.refs, hr.holdsBare⟩ hh).1,
      nofun⟩
  | @hold _ _ _ _ x _ _ _ hread _ ih₁ ih₂ =>
    obtain ⟨hbase, hbody, hbare, hsolid⟩ := hr.hold
    obtain ⟨h₁, h₁'⟩ := ih₁ hbase hh
    have h₁'' := hread.kinds hg.yields hsolid fun x hx => (hh x hx).1.2
    refine ih₂ hbody fun y hy => ?_
    cases hy
    have hx := List.mem_singleton_self x
    exact ⟨⟨h₁' hbare x hx, h₁'' x hx⟩, h₁ x hx⟩
  | @held ts x =>
    refine ⟨fun y hy => ?_, fun _ y hy => ?_⟩ <;> rw [List.mem_singleton.mp hy]
    · exact (hh x rfl).2
    · exact (hh x rfl).1.1
  | @extended ts x step =>
    refine ⟨fun y hy => ?_, fun _ y hy => ?_⟩ <;> rw [List.mem_singleton.mp hy]
    · exact (hh x rfl).2
    · exact (hh x rfl).1.1
  | @extend _ _ _ _ x _ _ hread _ ih₁ ih₂ =>
    obtain ⟨hstep, hbare, hsolid⟩ := hr.extend
    obtain ⟨h₁, h₁'⟩ := ih₁ hstep hh
    have h₁'' := hread.kinds hg.yields hsolid fun x hx => (hh x hx).1.2
    refine ih₂ hr fun y hy => ?_
    cases hy
    have hx := List.mem_singleton_self x
    exact ⟨⟨h₁' hbare x hx, h₁'' x hx⟩, h₁ x hx⟩

/-! ## lists of symbols -/

/-- The rule consists of symbols and tokens, side by side. -/
def isFlat : Rule σ → Bool
  | .seq a b | .alt a b => isFlat a && isFlat b
  | .many r | .wide _ r => isFlat r
  | .leaf .. | .node .. | .label .. | .hold .. | .held | .extend _ => false
  | _ => true

theorem Reads.of_isFlat {r : Rule σ} {h : Option Node} {ts rest : List Token} {xs : List Node}
    (hread : Reads grammar r h ts xs rest) (hr : r.isFlat = true) : ∀ x ∈ xs, x.kind = .token ∨
      ∃ s ∈ r.refs, ∃ ts' rest' ys, Reads grammar (grammar s) h ts' ys rest' ∧ x ∈ ys := by
  induction hread with
  | empty | onLine | finish | none | ahead | notAhead => exact nofun
  | token | lineBreak =>
    intro x hx
    rw [List.mem_singleton.mp hx]
    exact .inl rfl
  | @ref _ _ _ _ s hs ih => exact fun x hx => .inr ⟨s, List.mem_singleton_self s, _, _, _, hs, hx⟩
  | seq _ _ ih₁ ih₂ =>
    obtain ⟨h₁, h₂⟩ := Bool.and_eq_true_iff.mp hr
    intro x hx
    rcases List.mem_append.mp hx with hx | hx
    · exact (ih₁ h₁ x hx).imp_right fun ⟨s, hs, h⟩ => ⟨s, List.mem_append_left _ hs, h⟩
    · exact (ih₂ h₂ x hx).imp_right fun ⟨s, hs, h⟩ => ⟨s, List.mem_append_right _ hs, h⟩
  | first _ ih =>
    exact fun x hx => (ih (Bool.and_eq_true_iff.mp hr).1 x hx).imp_right
      fun ⟨s, hs, h⟩ => ⟨s, List.mem_append_left _ hs, h⟩
  | second _ ih =>
    exact fun x hx => (ih (Bool.and_eq_true_iff.mp hr).2 x hx).imp_right
      fun ⟨s, hs, h⟩ => ⟨s, List.mem_append_right _ hs, h⟩
  | more _ _ ih₁ ih₂ => exact fun x hx => (List.mem_append.mp hx).elim (ih₁ hr x) (ih₂ hr x)
  | wide _ ih => exact ih hr
  | leaf | node | label | hold | held | extended | extend => cases hr

/-! ## what composite rules read -/

section
variable {h : Option Node} {ts rest : List Token} {xs : List Node} {a b r : Rule σ} {k : Kind}
  {role : Role} {s : σ}

theorem reads_seq (hread : Reads grammar (.seq a b) h ts xs rest) : ∃ ys zs mid, xs = ys ++ zs ∧
    Reads grammar a h ts ys mid ∧ Reads grammar b h mid zs rest := by
  cases hread with
  | seq h₁ h₂ => exact ⟨_, _, _, rfl, h₁, h₂⟩

theorem reads_alt (hread : Reads grammar (.alt a b) h ts xs rest) :
    Reads grammar a h ts xs rest ∨ Reads grammar b h ts xs rest := by
  cases hread with
  | first h' => exact .inl h'
  | second h' => exact .inr h'

theorem reads_ref (hread : Reads grammar (.ref s) h ts xs rest) :
    Reads grammar (grammar s) h ts xs rest := by
  cases hread with
  | ref h' => exact h'

theorem reads_node (hread : Reads grammar (.node k r) h ts xs rest) :
    ∃ ys, xs = [.spanning k ys] ∧ Reads grammar r h ts ys rest := by
  cases hread with
  | node h' => exact ⟨_, rfl, h'⟩

theorem reads_token {t : Terminal} (hread : Reads grammar (.token t) h ts xs rest) :
    ∃ y, xs = [y] ∧ y.role = none ∧ y.kind = .token := by
  cases hread with
  | token => exact ⟨_, rfl, rfl, rfl⟩

theorem reads_label_leaf {t : Terminal}
    (hread : Reads grammar (.label role (.leaf k t)) h ts xs rest) :
    ∃ y, xs = [y] ∧ y.role = some role ∧ y.kind = k := by
  cases hread with
  | label hleaf =>
    cases hleaf with
    | leaf => exact ⟨_, rfl, rfl, rfl⟩

theorem reads_label_ref (hs : grammar s = .node k r)
    (hread : Reads grammar (.label role (.ref s)) h ts xs rest) :
    ∃ y, xs = [y] ∧ y.role = some role ∧ y.kind = k := by
  cases hread with
  | label href =>
    have hnode := reads_ref href
    rw [hs] at hnode
    obtain ⟨ys, rfl, -⟩ := reads_node hnode
    exact ⟨_, rfl, rfl, rfl⟩

theorem reads_label_held (hread : Reads grammar (.label role .held) h ts xs rest)
    (hh : ∀ x, h = some x → x.role = none) :
    ∃ x, h = some x ∧ xs = [x.withRole role] := by
  cases hread with
  | label hheld =>
    cases hheld with
    | held => exact ⟨_, rfl, bare_giveRole_singleton role (hh _ rfl)⟩

end

end Rule

end ParamThreading
