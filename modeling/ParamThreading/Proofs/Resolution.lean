import ParamThreading.Proofs.SourceTree

/-!
# From ranges back to nodes

In the tree of a source the range of a call leads back to that very call, and every range inside a
declaration leads to its parameter list.

* `SourceTree.enclosing_call`  the nodes around the range of a call;
* `SourceTree.enclosing_declaration`  the nodes around a range in a declaration;
* `parameterPath?_declaration`  the parameter list that such nodes lead to.
-/

namespace ParamThreading

open Rule Grammar

/-! ## the way down -/

namespace Node

theorem encloses_iff {n : Node} {a b : Nat} : n.encloses a b = true ↔
    n.start ≤ a ∧ b ≤ n.stop ∧ (a < n.stop ∨ n.start = n.stop) := by
  simp [encloses, and_assoc]

theorem encloses_of_before {x c : Node} {a b : Nat} (hxc : x.stop ≤ c.start)
    (hc : c.encloses a b = true) (h : a < b ∨ x.start < x.stop) : x.encloses a b = false := by
  rw [← Bool.not_eq_true, encloses_iff]
  rintro ⟨h₁, h₂, h₃⟩
  obtain ⟨h₄, -, -⟩ := encloses_iff.mp hc
  omega

/-- Of children in order, the first that encloses a range is the one that the range lies in. -/
theorem find?_encloses {cs : List Node} {c : Node} {a b : Nat} (hcs : cs.Pairwise Before)
    (hc : c ∈ cs) (hnamed : c.kind.isNamed = true) (hencloses : c.encloses a b = true)
    (h : a < b ∨ ∀ x ∈ cs, x.start < x.stop) :
    cs.find? (fun x => x.kind.isNamed && x.encloses a b) = some c := by
  obtain ⟨before, after, rfl⟩ := List.append_of_mem hc
  refine List.find?_eq_some_iff_append.mpr ⟨by simp [hnamed, hencloses], before, after, rfl, ?_⟩
  intro x hx
  have hbefore := (List.pairwise_append.mp hcs).2.2 x hx c List.mem_cons_self
  have hlt : a < b ∨ x.start < x.stop := h.imp_right fun h => h x (List.mem_append_left _ hx)
  rw [encloses_of_before (hbefore.2.2 hnamed) hencloses hlt]
  simp

theorem path_enclosing (n : Node) (a b : Nat) : Path n (n.enclosing a b) := by
  induction n using induct with
  | step n ih =>
    rw [enclosing_eq]
    cases hc : n.children.find? (fun c => c.kind.isNamed && c.encloses a b) with
    | none => exact .root
    | some c =>
      have hmem := List.mem_of_find?_eq_some hc
      have hfound := List.find?_some hc
      exact (ih c hmem).trans (.child .root hmem (Bool.and_eq_true_iff.mp hfound).1)

theorem mem_everything_of_mem_enclosing {n m : Node} {a b : Nat} (h : m ∈ n.enclosing a b) :
    m ∈ n.everything :=
  (path_enclosing n a b).mem_everything m h

/-- The nodes on the way down enclose the range, but for the one where it begins. -/
theorem encloses_of_suffix {n x : Node} {ps : List Node} {a b : Nat}
    (h : (x :: ps) <:+ n.enclosing a b) : (x = n ∧ ps = []) ∨ x.encloses a b = true := by
  induction n using induct generalizing ps with
  | step n ih =>
    rw [enclosing_eq] at h
    rcases List.suffix_concat_iff.mp h with h | ⟨qs, hqs, h⟩
    · cases h
    cases qs with
    | nil =>
      cases hqs
      exact .inl ⟨rfl, rfl⟩
    | cons y qs =>
      obtain ⟨rfl, -⟩ := List.cons.inj hqs
      cases hc : n.children.find? (fun c => c.kind.isNamed && c.encloses a b) with
      | none =>
        rw [hc] at h
        cases List.suffix_nil.mp h
      | some c =>
        rw [hc] at h
        have hfound := List.find?_some hc
        rcases ih c (List.mem_of_find?_eq_some hc) h with ⟨rfl, -⟩ | hx
        · exact .inr (Bool.and_eq_true_iff.mp hfound).2
        · exact .inr hx

theorem Path.split {root : Node} {ps : List Node} (h : Path root ps) :
    ∃ inner, ps = inner ++ [root] ∧ ∀ m ∈ inner, ∃ c ∈ root.children, m ∈ c.everything := by
  induction h with
  | root => exact ⟨[], rfl, nofun⟩
  | @child c p ps hp hc hn ih =>
    obtain ⟨inner, e, hinner⟩ := ih
    refine ⟨c :: inner, by rw [e]; rfl, fun m hm => ?_⟩
    rcases List.mem_cons.mp hm with rfl | hm
    · cases inner with
      | nil =>
        cases e
        exact ⟨m, hc, self_mem_everything m⟩
      | cons q inner =>
        cases e
        obtain ⟨d, hd, hpd⟩ := hinner p List.mem_cons_self
        have hm : m ∈ p.everything := Node.mem_everything.mpr (.inr ⟨m, hc, self_mem_everything m⟩)
        exact ⟨d, hd, everything_trans hm hpd⟩
    · exact hinner m hm

/-- Only named nodes have named nodes in them, since all others are leaves. -/
theorem isNamed_of_mem {among : Symbol → Prop} {n m : Node} (h : Made rule among n)
    (hm : m ∈ n.everything) (hnamed : m.kind.isNamed = true) : n.kind.isNamed = true := by
  cases h with
  | leaf hleaf _ =>
    rcases Node.mem_everything.mp hm with rfl | ⟨d, hd, -⟩
    · exact hnamed
    · rw [hleaf] at hd; cases hd
  | @form s _ _ _ _ _ hform _ _ => exact (checked s).named _ hform

theorem exists_path {among : Symbol → Prop} {n m : Node} (h : n.All (Made rule among))
    (hm : m ∈ n.everything) (hnamed : m.kind.isNamed = true) : ∃ ps, Path n (m :: ps) := by
  induction n using induct with
  | step n ih =>
    rcases Node.mem_everything.mp hm with rfl | ⟨c, hc, hmc⟩
    · exact ⟨[], .root⟩
    · obtain ⟨ps, hps⟩ := ih c hc (h.child hc) hmc
      exact ⟨ps ++ [n], hps.trans (.child .root hc (isNamed_of_mem (h.child hc).self hmc hnamed))⟩

end Node

namespace SourceTree

variable {text : String} {root x : Node} {ps : List Node} {a b : Nat}

theorem path (h : SourceTree text root) (hpath : Node.Path root (x :: ps)) :
    x.children.Pairwise Before ∧ (∀ c ∈ x.children, c.All Node.Neat) ∧
    (ps ≠ [] → x.All Node.Neat ∧ x.All (Made rule fun _ => True) ∧ x.stop ≤ text.utf8ByteSize) := by
  generalize hl : x :: ps = l at hpath
  induction hpath generalizing x ps with
  | root =>
    cases hl
    exact ⟨h.ordered, h.neat, nofun⟩
  | @child c p qs hp hc hn ih =>
    cases hl
    obtain ⟨-, hneat, hbelow⟩ := ih rfl
    have hx := hneat c hc
    refine ⟨hx.self.ordered, fun d hd => hx.child hd, fun _ => ⟨hx, ?_⟩⟩
    cases qs with
    | nil =>
      -- only the root is reached without nodes in between
      cases hp
      exact ⟨h.made c hc, h.within c hc⟩
    | cons q qs =>
      obtain ⟨hpneat, hpmade, hpstop⟩ := hbelow (List.cons_ne_nil q qs)
      exact ⟨hpmade.child hc, (hpneat.self.within c hc).2.trans hpstop⟩

theorem enclosing_path (h : SourceTree text root) (hpath : Node.Path root (x :: ps)) (hab : a < b)
    (hx : ps ≠ [] → x.start ≤ a ∧ b ≤ x.stop) :
    root.enclosing a b = x.enclosing a b ++ ps := by
  generalize hl : x :: ps = l at hpath
  induction hpath generalizing x ps with
  | root =>
    cases hl
    rw [List.append_nil]
  | @child c p qs hp hc hn ih =>
    cases hl
    obtain ⟨hordered, -, hbelow⟩ := h.path hp
    obtain ⟨h₁, h₂⟩ := hx (List.cons_ne_nil p qs)
    have hp' : qs ≠ [] → p.start ≤ a ∧ b ≤ p.stop := by
      intro hne
      obtain ⟨h₃, h₄⟩ := (hbelow hne).1.self.within c hc
      exact ⟨h₃.trans h₁, h₂.trans h₄⟩
    have hencloses : c.encloses a b = true := Node.encloses_iff.mpr ⟨h₁, h₂, .inl (by omega)⟩
    rw [ih hp' rfl, Node.enclosing_eq, Node.find?_encloses hordered hc hn hencloses (.inl hab)]
    simp

/-- Nothing inside a call covers all of it. -/
theorem enclosing_self {f args : Node} (hx : x.All Node.Neat) (hshape : CallShape x f args) :
    x.start < x.stop ∧ x.enclosing x.start x.stop = [x] := by
  obtain ⟨between, hc, -⟩ := hshape.children
  have hf : f.start < f.stop := by
    have hmem : f ∈ x.children := by rw [hc]; exact List.mem_cons_self
    exact (hx.child hmem).self.filled hshape.solid
  have hargs : args.start < args.stop := by
    have hmem : args ∈ x.children := by rw [hc]; simp
    exact (hx.child hmem).self.filled (by rw [hshape.list]; rfl)
  have hlast : ∀ y ∈ f :: between, y.stop ≤ args.start := by
    intro y hy
    have hordered := hx.self.ordered
    rw [hc, ← List.cons_append] at hordered
    have hbefore := (List.pairwise_append.mp hordered).2.2 y hy args (List.mem_singleton_self args)
    exact hbefore.2.2 (by rw [hshape.list]; rfl)
  have hin : ∀ y ∈ x.children, x.start ≤ y.start ∧ y.stop ≤ x.stop := hx.self.within
  have hfin := hin f (by rw [hc]; exact List.mem_cons_self)
  have hain := hin args (by rw [hc]; simp)
  have hnone : x.children.find? (fun y => y.kind.isNamed && y.encloses x.start x.stop) = none := by
    rw [List.find?_eq_none]
    intro y hy hcover
    obtain ⟨h₁, h₂, -⟩ := Node.encloses_iff.mp (Bool.and_eq_true_iff.mp hcover).2
    rw [hc, ← List.cons_append] at hy
    have hfa := hlast f List.mem_cons_self
    rcases List.mem_append.mp hy with hy | hy
    · have := hlast y hy
      omega
    · rw [List.mem_singleton.mp hy] at h₁
      omega
  refine ⟨by omega, ?_⟩
  rw [Node.enclosing_eq, hnone]
  rfl

theorem enclosing_call (h : SourceTree text root) (hpath : Node.Path root (x :: ps)) (hne : ps ≠ [])
    (hk : x.kind = .callExpression) :
    (∃ f args, CallShape x f args) ∧ x.start < x.stop ∧ x.stop ≤ text.utf8ByteSize ∧
      root.enclosing x.start x.stop = x :: ps := by
  obtain ⟨hneat, hmade, hstop⟩ := (h.path hpath).2.2 hne
  obtain ⟨f, args, hshape⟩ := callShape hmade.self hk
  obtain ⟨hlt, hself⟩ := enclosing_self hneat hshape
  refine ⟨⟨f, args, hshape⟩, hlt, hstop, ?_⟩
  rw [h.enclosing_path hpath hlt fun _ => ⟨Nat.le_refl _, Nat.le_refl _⟩, hself]
  rfl

/-- A range in a declaration leads to the declaration, with nodes inside it before. -/
theorem enclosing_declaration (h : SourceTree text root) {d : Node} (hd : d ∈ root.children)
    (hdecl : d.isDeclaration = true) (hab : d.encloses a b = true) :
    ∃ inner, root.enclosing a b = inner ++ [d, root] ∧ ∀ m ∈ inner, m.isDeclaration = false := by
  obtain ⟨params, -, hinner⟩ := h.declaration d hd hdecl
  have hroot : root.enclosing a b = d.enclosing a b ++ [root] := by
    rw [Node.enclosing_eq a b root,
      Node.find?_encloses h.ordered hd (Node.isNamed_of_isDeclaration hdecl) hab (.inr h.filled)]
    rfl
  rw [hroot, Node.enclosing_eq a b d]
  refine ⟨_, List.append_assoc .., fun m hm => ?_⟩
  cases hc : d.children.find? (fun c => c.kind.isNamed && c.encloses a b) with
  | none => rw [hc] at hm; cases hm
  | some c =>
    rw [hc] at hm
    exact hinner c (List.mem_of_find?_eq_some hc) m (Node.mem_everything_of_mem_enclosing hm)

theorem path_declaration (h : SourceTree text root) {d : Node} (hd : d ∈ root.children)
    (hdecl : d.isDeclaration = true) (hpath : Node.Path d ps) :
    ∃ inner, ps ++ [root] = inner ++ [d, root] ∧ ∀ m ∈ inner, m.isDeclaration = false := by
  obtain ⟨params, -, hinner⟩ := h.declaration d hd hdecl
  obtain ⟨inner, rfl, hbelow⟩ := hpath.split
  refine ⟨inner, List.append_assoc .., fun m hm => ?_⟩
  obtain ⟨c, hc, hmc⟩ := hbelow m hm
  exact hinner c hc m hmc

end SourceTree

/-! ## parameter lists -/

theorem exists_of_parameterPath? {path found : List Node} (h : parameterPath? path = some found) :
    ∃ inner d above params, path = inner ++ d :: above ∧
      (∀ n ∈ inner, n.isDeclaration = true → n.child? .parameters = none) ∧
      d.isDeclaration = true ∧ d.child? .parameters = some params ∧
        found = params :: d :: above := by
  induction path with
  | nil => cases h
  | cons n path ih =>
    have hlater : (n.isDeclaration = true → n.child? .parameters = none) →
        parameterPath? path = some found → ∃ inner d above params, n :: path = inner ++ d :: above ∧
          (∀ m ∈ inner, m.isDeclaration = true → m.child? .parameters = none) ∧
          d.isDeclaration = true ∧ d.child? .parameters = some params ∧
          found = params :: d :: above := by
      intro hn h
      obtain ⟨inner, d, above, params, rfl, hinner, hd⟩ := ih h
      refine ⟨n :: inner, d, above, params, rfl, fun m hm => ?_, hd⟩
      rcases List.mem_cons.mp hm with rfl | hm
      · exact hn
      · exact hinner m hm
    by_cases hdecl : n.isDeclaration = true
    · rw [parameterPath?, if_pos hdecl] at h
      cases hparams : n.child? .parameters with
      | none =>
        rw [hparams] at h
        exact hlater (fun _ => hparams) h
      | some params =>
        rw [hparams] at h
        cases h
        exact ⟨[], n, path, params, rfl, nofun, hdecl, hparams, rfl⟩
    · rw [parameterPath?, if_neg hdecl] at h
      exact hlater (fun h' => absurd h' hdecl) h

theorem parameterPath?_declaration {inner rest : List Node} {d params : Node}
    (hinner : ∀ m ∈ inner, m.isDeclaration = false) (hd : DeclarationShape d params) :
    parameterPath? (inner ++ d :: rest) = some (params :: d :: rest) := by
  induction inner with
  | nil => simp [parameterPath?, hd.isDeclaration, hd.parameters]
  | cons m inner ih =>
    rw [List.cons_append, parameterPath?, hinner m List.mem_cons_self]
    exact ih fun m hm => hinner m (List.mem_cons_of_mem _ hm)

theorem signature?_declaration {a : Address} {inner rest : List Node} {d params : Node}
    (ha : a.path = inner ++ d :: rest) (hinner : ∀ m ∈ inner, m.isDeclaration = false)
    (hd : DeclarationShape d params) : a.signature? = some (.ofNode a.file params (d :: rest)) := by
  rw [Address.signature?, ha, parameterPath?_declaration hinner hd]

end ParamThreading
