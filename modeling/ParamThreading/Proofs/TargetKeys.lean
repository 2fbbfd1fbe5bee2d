import ParamThreading.Proofs.EnclosingNodes

/-!
# The keys of targets

A call is known by its opening parenthesis and a parameter list by its beginning. In a tree whose
nodes lie in order inside each other no two calls have the same key, however they are nested, and
neither have two parameter lists. So a frontier holds every target that was recorded, and each of
them once.

* `Node.Spaced`  trees whose nodes lie in order, with a callee before every argument list;
* `Node.Path.compare`  of two ways up one goes on as the other, or they part below a node;
* `Node.Spaced.arguments_apart`, `Node.Spaced.lists_apart`  calls and lists have keys of their own;
* `FirstOf`  a list without the entries whose key was there before;
* `Frontier.record_keys`  what a frontier holds after any targets were recorded.
-/

namespace ParamThreading

namespace Node

/-! ## trees in order -/

/-- The nodes of a tree that are reached through named nodes lie in order inside each other, and all
of them but the contents of raw strings cover some text. The callee of a call stands before the
argument list, and what stands in a parameter list begins behind its opening parenthesis. -/
structure Spaced (root : Node) : Prop where
  ordered : ∀ n ps, Path root (n :: ps) → n.codeChildren.Pairwise fun x y => x.stop ≤ y.start
  filled : ∀ n ps, Path root (n :: ps) → ∀ c ∈ n.codeChildren,
    c.start ≤ c.stop ∧ (c.kind.isSolid = true → c.start < c.stop)
  within : ∀ n ps, Path root (n :: ps) → ps ≠ [] →
    ∀ c ∈ n.codeChildren, n.start ≤ c.start ∧ c.stop ≤ n.stop
  call : ∀ n ps, Path root (n :: ps) → n.kind = .callExpression → ∃ f args,
    n.child? .function = some f ∧ n.child? .arguments = some args ∧ args ∈ n.codeChildren ∧
    n.start ≤ f.start ∧ f.start < f.stop ∧ f.stop ≤ args.start ∧ args.start < args.stop
  list : ∀ n ps, Path root (n :: ps) → n.kind = .parameterList →
    ∀ c ∈ n.codeChildren, n.start < c.start

/-- Of two ways up one goes on as the other, or they come from different children of a node. -/
theorem Path.compare {root : Node} {ps qs : List Node} (hp : Path root ps) (hq : Path root qs) :
    ps <:+ qs ∨ qs <:+ ps ∨ ∃ x y z zs, Path root (z :: zs) ∧ x ∈ z.codeChildren ∧
      y ∈ z.codeChildren ∧ x ≠ y ∧ (x :: z :: zs) <:+ ps ∧ (y :: z :: zs) <:+ qs := by
  induction hp with
  | root =>
    obtain ⟨inner, rfl, -⟩ := hq.split
    exact .inl (List.suffix_append ..)
  | @child c n ns hn hc hnamed ih =>
    rcases ih with hup | hup | ⟨x, y, z, zs, hz, hx, hy, hne, hps, hqs⟩
    · -- the second way up comes through the same node
      obtain ⟨inner, rfl⟩ := hup
      obtain rfl | ⟨inner, d, rfl⟩ := List.eq_nil_or_concat inner
      · exact .inr (.inl (List.suffix_cons ..))
      · rw [List.concat_eq_append, List.append_assoc, List.singleton_append] at hq ⊢
        have hd : (d :: n :: ns) <:+ inner ++ d :: n :: ns := List.suffix_append ..
        by_cases hcd : c = d
        · exact .inl (hcd ▸ hd)
        · cases hq.of_suffix hd with
          | child _ hd' hnamed' =>
            exact .inr (.inr ⟨c, d, n, ns, hn, List.mem_filter.mpr ⟨hc, hnamed⟩,
              List.mem_filter.mpr ⟨hd', hnamed'⟩, hcd, List.suffix_refl _, hd⟩)
    · exact .inr (.inl (hup.trans (List.suffix_cons ..)))
    · exact .inr (.inr ⟨x, y, z, zs, hz, hx, hy, hne, hps.trans (List.suffix_cons ..), hqs⟩)

theorem Path.exists_child {root x y : Node} {ps qs : List Node} (hy : Path root (y :: qs))
    (hup : (x :: ps) <:+ y :: qs) (hne : x :: ps ≠ y :: qs) :
    ∃ c, Path root (c :: x :: ps) ∧ (c :: x :: ps) <:+ y :: qs := by
  obtain ⟨inner, hinner⟩ := hup
  obtain rfl | ⟨inner, c, rfl⟩ := List.eq_nil_or_concat inner
  · exact absurd hinner hne
  · rw [List.concat_eq_append, List.append_assoc, List.singleton_append] at hinner
    exact ⟨c, hy.of_suffix ⟨inner, hinner⟩, inner, hinner⟩

theorem Path.mem_codeChildren {root c x : Node} {ps : List Node} (h : Path root (c :: x :: ps)) :
    c ∈ x.codeChildren := by
  cases h with
  | child _ hmem hnamed => exact List.mem_filter.mpr ⟨hmem, hnamed⟩

theorem Path.mem_everything_of_suffix {root x y : Node} {ps qs : List Node}
    (hy : Path root (y :: qs)) (hup : (x :: ps) <:+ y :: qs) : y ∈ x.everything := by
  generalize hl : y :: qs = l at hy hup
  induction hy generalizing y qs with
  | root =>
    rcases List.suffix_cons_iff.mp hup with hup | hup
    · cases hl
      cases hup
      exact self_mem_everything _
    · cases List.suffix_nil.mp hup
  | @child d n ns hn hd hnamed ih =>
    cases hl
    rcases List.suffix_cons_iff.mp hup with hup | hup
    · cases hup
      exact self_mem_everything _
    · exact everything_trans (Node.mem_everything.mpr (.inr ⟨d, hd, self_mem_everything d⟩))
        (ih rfl hup)

theorem ne_nil_of_suffix {c x y : Node} {ps qs : List Node} (h : (c :: x :: ps) <:+ y :: qs) :
    qs ≠ [] := by
  rintro rfl
  have hle := h.length_le
  simp at hle

namespace Spaced

variable {root x y z c d : Node} {ps qs zs : List Node}

theorem covers (h : Spaced root) (hx : Path root (x :: ps)) (hps : ps ≠ [])
    (hy : Path root (y :: qs))
    (hup : (x :: ps) <:+ y :: qs) : x.start ≤ y.start ∧ y.stop ≤ x.stop := by
  generalize hl : y :: qs = l at hy hup
  induction hy generalizing y qs with
  | root =>
    rcases List.suffix_cons_iff.mp hup with hup | hup
    · cases hup
      exact absurd rfl hps
    · cases List.suffix_nil.mp hup
  | @child d n ns hn hd hnamed ih =>
    cases hl
    rcases List.suffix_cons_iff.mp hup with hup | hup
    · cases hup
      exact ⟨le_rfl, le_rfl⟩
    · obtain ⟨h₁, h₂⟩ := ih rfl hup
      have hns : ns ≠ [] := by
        rintro rfl
        rcases List.suffix_cons_iff.mp hup with hup | hup
        · cases hup
          exact hps rfl
        · cases List.suffix_nil.mp hup
      obtain ⟨h₃, h₄⟩ := h.within n ns hn hns d (List.mem_filter.mpr ⟨hd, hnamed⟩)
      exact ⟨h₁.trans h₃, h₄.trans h₂⟩

theorem before_or_before (h : Spaced root) (hz : Path root (z :: zs)) (hc : c ∈ z.codeChildren)
    (hd : d ∈ z.codeChildren) (hne : c ≠ d) : c.stop ≤ d.start ∨ d.stop ≤ c.start := by
  have hsymm : Std.Symm fun x y : Node => x.stop ≤ y.start ∨ y.stop ≤ x.start :=
    ⟨fun _ _ => Or.symm⟩
  have hpairs : z.codeChildren.Pairwise fun x y => x.stop ≤ y.start ∨ y.stop ≤ x.start :=
    (h.ordered z zs hz).imp Or.inl
  exact hpairs.forall hc hd hne

/-- Offsets in different nodes are different, given that they are so for a node and those below it.
-/
theorem offsets_apart (h : Spaced root) (hx : Path root (x :: ps)) (hy : Path root (y :: qs))
    (hne : x :: ps ≠ y :: qs) {m m' : Nat} (hm : ps ≠ [] → x.start ≤ m ∧ m < x.stop)
    (hm' : qs ≠ [] → y.start ≤ m' ∧ m' < y.stop)
    (hbelow : ∀ c, Path root (c :: x :: ps) → (c :: x :: ps) <:+ y :: qs → m ≠ m')
    (hbelow' : ∀ c, Path root (c :: y :: qs) → (c :: y :: qs) <:+ x :: ps → m ≠ m') : m ≠ m' := by
  rcases hx.compare hy with hup | hup | ⟨c, d, z, zs, hz, hc, hd, hcd, hup, hup'⟩
  · obtain ⟨c, hc, hup⟩ := hy.exists_child hup hne
    exact hbelow c hc hup
  · obtain ⟨c, hc, hup⟩ := hx.exists_child hup (Ne.symm hne)
    exact hbelow' c hc hup
  · obtain ⟨h₁, h₂⟩ := hm (ne_nil_of_suffix hup)
    obtain ⟨h₃, h₄⟩ := hm' (ne_nil_of_suffix hup')
    obtain ⟨h₅, h₆⟩ := h.covers (hx.of_suffix hup) (List.cons_ne_nil z zs) hx hup
    obtain ⟨h₇, h₈⟩ := h.covers (hy.of_suffix hup') (List.cons_ne_nil z zs) hy hup'
    rcases h.before_or_before hz hc hd hcd with hle | hle <;> omega

theorem arguments_within (h : Spaced root) (hx : Path root (x :: ps)) (hps : ps ≠ [])
    (hk : x.kind = .callExpression) {args : Node} (hargs : x.child? .arguments = some args) :
    x.start < args.start ∧ args.start < args.stop ∧ args.stop ≤ x.stop := by
  obtain ⟨f, args', -, hargs', hmem, h₁, h₂, h₃, h₄⟩ := h.call x ps hx hk
  cases hargs.symm.trans hargs'
  exact ⟨by omega, h₄, (h.within x ps hx hps args hmem).2⟩

/-- A call inside another one has its argument list elsewhere, be it in the callee or in an
argument. -/
theorem arguments_below (h : Spaced root) (hx : Path root (x :: ps)) (hc : Path root (c :: x :: ps))
    (hy : Path root (y :: qs)) (hup : (c :: x :: ps) <:+ y :: qs) (hxk : x.kind = .callExpression)
    (hyk : y.kind = .callExpression) {args args' : Node} (hargs : x.child? .arguments = some args)
    (hargs' : y.child? .arguments = some args') : args.start ≠ args'.start := by
  obtain ⟨f, list, -, hlist, hmem, -, -, -, hfilled⟩ := h.call x ps hx hxk
  cases hargs.symm.trans hlist
  obtain ⟨h₁, h₂, h₃⟩ := h.arguments_within hy (ne_nil_of_suffix hup) hyk hargs'
  obtain ⟨h₄, h₅⟩ := h.covers hc (List.cons_ne_nil x ps) hy hup
  by_cases hsame : c = args
  · rw [hsame] at h₄
    omega
  · rcases h.before_or_before hx hc.mem_codeChildren hmem hsame with hle | hle <;> omega

theorem arguments_apart (h : Spaced root) (hx : Path root (x :: ps)) (hy : Path root (y :: qs))
    (hxk : x.kind = .callExpression) (hyk : y.kind = .callExpression) (hne : x :: ps ≠ y :: qs)
    {args args' : Node} (hargs : x.child? .arguments = some args)
    (hargs' : y.child? .arguments = some args') : args.start ≠ args'.start := by
  refine h.offsets_apart hx hy hne (fun hps => ?_) (fun hqs => ?_) (fun c hc hup => ?_)
    fun c hc hup => ?_
  · obtain ⟨h₁, h₂, h₃⟩ := h.arguments_within hx hps hxk hargs
    exact ⟨h₁.le, h₂.trans_le h₃⟩
  · obtain ⟨h₁, h₂, h₃⟩ := h.arguments_within hy hqs hyk hargs'
    exact ⟨h₁.le, h₂.trans_le h₃⟩
  · exact h.arguments_below hx hc hy hup hxk hyk hargs hargs'
  · exact (h.arguments_below hy hc hx hup hyk hxk hargs' hargs).symm

theorem lists_apart (h : Spaced root) (hx : Path root (x :: ps)) (hy : Path root (y :: qs))
    (hxk : x.kind = .parameterList) (hyk : y.kind = .parameterList) (hne : x :: ps ≠ y :: qs) :
    x.start ≠ y.start := by
  have hfilled : ∀ {n ns}, Path root (n :: ns) → n.kind = .parameterList → ns ≠ [] →
      n.start < n.stop := by
    intro n ns hn hk hns
    cases hn with
    | root => exact absurd rfl hns
    | child hm hmem hnamed =>
      exact (h.filled _ _ hm n (List.mem_filter.mpr ⟨hmem, hnamed⟩)).2 (by rw [hk]; rfl)
  refine h.offsets_apart hx hy hne (fun hps => ⟨le_rfl, hfilled hx hxk hps⟩)
    (fun hqs => ⟨le_rfl, hfilled hy hyk hqs⟩) (fun c hc hup => ?_) fun c hc hup => ?_
  · have hlt := h.list x ps hx hxk c hc.mem_codeChildren
    have hle := h.covers hc (List.cons_ne_nil x ps) hy hup
    omega
  · have hlt := h.list y qs hy hyk c hc.mem_codeChildren
    have hle := h.covers hc (List.cons_ne_nil y qs) hx hup
    omega

end Spaced

end Node

/-! ## parsed trees -/

namespace Program.WellFormed

variable {p : Program} {file : FileId} {x : Node} {ps : List Node}

theorem ne_nil_of_kind (hp : p.WellFormed) (hfile : file < p.files.length)
    (hx : Node.Path (p.file file).tree (x :: ps)) (hk : x.kind ≠ .sourceFile) : ps ≠ [] := by
  rintro rfl
  cases hx
  exact hk (Grammar.kind_of_parse (hp.parsed _ (Program.file_mem hfile)))

theorem extent (hp : p.WellFormed) (hfile : file < p.files.length)
    (hx : Node.Path (p.file file).tree (x :: ps)) (hps : ps ≠ []) (hsolid : x.kind.isSolid = true) :
    x.start < x.stop ∧ x.stop ≤ (p.file file).text.utf8ByteSize := by
  obtain ⟨hneat, -, hstop⟩ := ((hp.tree _ (Program.file_mem hfile)).path hx).2.2 hps
  exact ⟨hneat.self.filled hsolid, hstop⟩

theorem spaced (hp : p.WellFormed) (hfile : file < p.files.length) : (p.file file).tree.Spaced := by
  have htree := hp.tree _ (Program.file_mem hfile)
  have horderly := hp.orderly hfile
  refine ⟨horderly.ordered, fun n ps hpath c hc => ⟨?_, fun hsolid => ?_⟩, horderly.within,
    fun n ps hpath hk => ?_, fun n ps hpath hk c hc => ?_⟩
  · rcases horderly.filled n ps hpath c hc with hlt | ⟨hempty, -⟩ <;> omega
  · exact ((htree.path hpath).2.1 c (List.mem_filter.mp hc).1).self.filled hsolid
  · obtain ⟨hneat, hmade, -⟩ :=
      (htree.path hpath).2.2 (hp.ne_nil_of_kind hfile hpath (by rw [hk]; decide))
    obtain ⟨f, args, hshape⟩ := Grammar.callShape hmade.self hk
    obtain ⟨between, hchildren, -⟩ := hshape.children
    have hf : f ∈ n.children := by rw [hchildren]; exact List.mem_cons_self
    have hargs : args ∈ n.children := by rw [hchildren]; simp
    have hnamed : args.kind.isNamed = true := by rw [hshape.list]; rfl
    have hbefore : Before f args := by
      have hordered := hneat.self.ordered
      rw [hchildren] at hordered
      exact (List.pairwise_cons.mp hordered).1 args (by simp)
    refine ⟨f, args, ?_, hshape.child_arguments, List.mem_filter.mpr ⟨hargs, hnamed⟩,
      (hneat.self.within f hf).1, (hneat.child hf).self.filled hshape.solid, hbefore.2.2 hnamed,
      (hneat.child hargs).self.filled (by rw [hshape.list]; rfl)⟩
    simp [Node.child?, hchildren, hshape.function]
  · have hnode :=
      Program.hasNode_of_path hfile hpath (hp.ne_nil_of_kind hfile hpath (by rw [hk]; decide))
    exact (hnode.between_child hp (by rw [hk]; rfl) hc).1

end Program.WellFormed

/-! ## lists of first entries -/

section
variable {α κ : Type} {key : α → κ} {xs ys : List α}

/-- The second list holds the entries of the first one whose key was not there before, in order. -/
inductive FirstOf (key : α → κ) : List α → List α → Prop where
  | nil : FirstOf key [] []
  | fresh {xs ys : List α} {x : α} : FirstOf key xs ys → key x ∉ xs.map key →
      FirstOf key (xs ++ [x]) (ys ++ [x])
  | again {xs ys : List α} {x : α} : FirstOf key xs ys → key x ∈ xs.map key →
    FirstOf key (xs ++ [x]) ys

namespace FirstOf

theorem subset (h : FirstOf key xs ys) : ys ⊆ xs := by
  induction h with
  | nil => exact List.Subset.refl _
  | fresh _ _ ih => exact List.append_subset.mpr ⟨List.subset_append_of_subset_left _ ih, by simp⟩
  | again _ _ ih => exact List.subset_append_of_subset_left _ ih

theorem mem_keys (h : FirstOf key xs ys) (k : κ) : k ∈ ys.map key ↔ k ∈ xs.map key := by
  induction h with
  | nil => exact Iff.rfl
  | fresh _ _ ih => rw [List.map_append, List.map_append, List.mem_append, List.mem_append, ih]
  | again _ hmem ih =>
    rw [List.map_append, List.mem_append, ih]
    refine ⟨.inl, fun h => h.elim id fun hk => ?_⟩
    rw [List.map_singleton, List.mem_singleton] at hk
    exact hk ▸ hmem

variable {code : α → Key} {a : α}

/-- Entries can be looked up by another key that tells the same ones apart. -/
theorem any_iff (h : FirstOf key xs ys) (hcode : ∀ x ∈ xs, code x = code a ↔ key x = key a) :
    ys.any (code · == code a) = true ↔ key a ∈ xs.map key := by
  rw [← h.mem_keys, List.any_eq_true, List.mem_map]
  refine exists_congr fun x => and_congr_right fun hx => ?_
  rw [beq_iff_eq, hcode x (h.subset hx)]

theorem insert (h : FirstOf key xs ys) (hcode : ∀ x ∈ xs, code x = code a ↔ key x = key a) :
    FirstOf key (xs ++ [a]) (if ys.any (code · == code a) then ys else ys ++ [a]) := by
  have hany := h.any_iff hcode
  split
  case isTrue hin => exact h.again (hany.mp hin)
  case isFalse hout => exact h.fresh fun hin => hout (hany.mpr hin)

end FirstOf

end

/-! ## targets -/

/-- The innermost node of an address, with its file and all nodes around it. -/
def Address.place (a : Address) : FileId × List Node :=
  (a.file, a.path)

/-- The innermost node of an address is a call in a file. -/
structure Address.AtCall (p : Program) (a : Address) : Prop where
  loaded : a.file < p.files.length
  path : Node.Path (p.file a.file).tree a.path
  call : ∃ n, a.node? = some n ∧ n.kind = .callExpression

/-- An address covers a parameter list in a file, no less and no more. -/
structure Address.AtList (p : Program) (a : Address) : Prop where
  loaded : a.file < p.files.length
  path : Node.Path (p.file a.file).tree a.path
  list : ∃ n, a.node? = some n ∧ n.kind = .parameterList ∧ a.start = n.start ∧ a.stop = n.stop

section
variable {p : Program} {a b : Address}

theorem Address.exists_path {n : Node} (h : a.node? = some n) : ∃ ps, a.path = n :: ps := by
  obtain ⟨ps, hps⟩ := List.head?_eq_some_iff.mp h
  exact ⟨ps, hps⟩

theorem Address.AtCall.exists_arguments (hp : ∀ file < p.files.length, (p.file file).tree.Spaced)
    (ha : a.AtCall p) : ∃ n ps args, a.path = n :: ps ∧ n.kind = .callExpression ∧
      n.child? .arguments = some args ∧ a.callKey = ⟨a.file, args.start⟩ := by
  obtain ⟨n, hn, hk⟩ := ha.call
  obtain ⟨ps, hps⟩ := Address.exists_path hn
  obtain ⟨-, args, -, hargs, -⟩ := (hp a.file ha.loaded).call n ps (hps ▸ ha.path) hk
  exact ⟨n, ps, args, hps, hk, hargs, by simp [callKey, hn, Option.filter, hk, hargs]⟩

theorem Address.AtCall.callKey_eq (hp : ∀ file < p.files.length, (p.file file).tree.Spaced)
    (ha : a.AtCall p) (hb : b.AtCall p) : a.callKey = b.callKey ↔ a.place = b.place := by
  obtain ⟨x, ps, args, hpath, hxk, hargs, hkey⟩ := ha.exists_arguments hp
  obtain ⟨y, qs, args', hpath', hyk, hargs', hkey'⟩ := hb.exists_arguments hp
  rw [hkey, hkey', Key.mk.injEq, place, place, Prod.mk.injEq]
  refine and_congr_right fun hfile => ⟨fun hstart => ?_, fun hsame => ?_⟩
  · by_contra hne
    rw [hpath, hpath'] at hne
    have hx := ha.path
    have hy := hb.path
    rw [hpath] at hx
    rw [hpath', ← hfile] at hy
    exact (hp a.file ha.loaded).arguments_apart hx hy hxk hyk hne hargs hargs' hstart
  · rw [hpath, hpath'] at hsame
    cases hsame
    cases hargs.symm.trans hargs'
    rfl

theorem Address.AtList.key_eq (hp : ∀ file < p.files.length, (p.file file).tree.Spaced)
    (ha : a.AtList p) (hb : b.AtList p) : a.key = b.key ↔ a.place = b.place := by
  obtain ⟨x, hx, hxk, hstart, -⟩ := ha.list
  obtain ⟨y, hy, hyk, hstart', -⟩ := hb.list
  obtain ⟨ps, hpath⟩ := Address.exists_path hx
  obtain ⟨qs, hpath'⟩ := Address.exists_path hy
  rw [key, key, Key.mk.injEq, place, place, Prod.mk.injEq, hstart, hstart']
  refine and_congr_right fun hfile => ⟨fun hsame => ?_, fun hsame => ?_⟩
  · by_contra hne
    rw [hpath, hpath'] at hne
    have hx := ha.path
    have hy := hb.path
    rw [hpath] at hx
    rw [hpath', ← hfile] at hy
    exact (hp a.file ha.loaded).lists_apart hx hy hxk hyk hne hsame
  · rw [hpath, hpath'] at hsame
    cases hsame
    rfl

end

/-! ## recording targets -/

/-- A target that is to be recorded in a frontier. -/
inductive Recording where
  | signature (a : Address)
  | callSite (a : Address)

namespace Recording

/-- Parameter lists are recorded by their own addresses, calls by any address with the call. -/
def Sound (p : Program) : Recording → Prop
  | .signature a => a.AtList p
  | .callSite a => a.AtCall p

def target : Recording → (FileId × List Node) ⊕ (FileId × List Node)
  | .signature a => .inl a.place
  | .callSite a => .inr a.place

def signature? : Recording → Option Address
  | .signature a => some a
  | .callSite _ => none

def callSite? : Recording → Option Address
  | .signature _ => none
  | .callSite a => some a

variable {rs : List Recording} {a : Address}

theorem mem_signatures : a ∈ rs.filterMap signature? ↔ .signature a ∈ rs := by
  rw [List.mem_filterMap]
  refine ⟨fun ⟨r, hr, ha⟩ => ?_, fun h => ⟨_, h, rfl⟩⟩
  cases r <;> cases ha
  exact hr

theorem mem_callSites : a ∈ rs.filterMap callSite? ↔ .callSite a ∈ rs := by
  rw [List.mem_filterMap]
  refine ⟨fun ⟨r, hr, ha⟩ => ?_, fun h => ⟨_, h, rfl⟩⟩
  cases r <;> cases ha
  exact hr

theorem mem_targets_signature :
    (Recording.signature a).target ∈ rs.map target ↔
      a.place ∈ (rs.filterMap signature?).map Address.place := by
  simp only [List.mem_map, mem_signatures]
  refine ⟨fun ⟨r, hr, ha⟩ => ?_, fun ⟨b, hb, hab⟩ => ⟨_, hb, congrArg Sum.inl hab⟩⟩
  cases r with
  | signature b => exact ⟨b, hr, Sum.inl.inj ha⟩
  | callSite => cases ha

theorem mem_targets_callSite :
    (Recording.callSite a).target ∈ rs.map target ↔
      a.place ∈ (rs.filterMap callSite?).map Address.place := by
  simp only [List.mem_map, mem_callSites]
  refine ⟨fun ⟨r, hr, ha⟩ => ?_, fun ⟨b, hb, hab⟩ => ⟨_, hb, congrArg Sum.inr hab⟩⟩
  cases r with
  | signature => cases ha
  | callSite b => exact ⟨b, hr, Sum.inr.inj ha⟩

end Recording

namespace Frontier

variable {p : Program} {f : Frontier} {rs : List Recording} {r : Recording}

def record (f : Frontier) : Recording → Frontier
  | .signature a => f.addSignature a
  | .callSite a => f.addCallSite a

/-- Whether a target is added, or turned away since its key is there. -/
def admits (f : Frontier) : Recording → Bool
  | .signature a => !f.hasSignature a.key
  | .callSite a => !f.hasCallSite a.callKey

/-- A frontier holds one entry for each of the targets that were recorded, in the order in which
they came first. -/
structure Records (f : Frontier) (rs : List Recording) : Prop where
  signatures : FirstOf Address.place (rs.filterMap Recording.signature?) f.signatures
  callSites : FirstOf Address.place (rs.filterMap Recording.callSite?) f.callSites

namespace Records

theorem record (hp : ∀ file < p.files.length, (p.file file).tree.Spaced) (h : f.Records rs)
    (hrs : ∀ r ∈ rs, r.Sound p) (hr : r.Sound p) : (f.record r).Records (rs ++ [r]) := by
  cases r with
  | signature a =>
    have hcode : ∀ b ∈ rs.filterMap Recording.signature?, b.key = a.key ↔ b.place = a.place :=
      fun b hb =>
      Address.AtList.key_eq hp (hrs _ (Recording.mem_signatures.mp hb)) hr
    constructor
    · rw [List.filterMap_append]
      show FirstOf _ _ (f.addSignature a).signatures
      rw [addSignature, apply_ite Frontier.signatures]
      exact h.signatures.insert hcode
    · rw [List.filterMap_append]
      show FirstOf _ (_ ++ []) (f.addSignature a).callSites
      rw [List.append_nil, callSites_addSignature]
      exact h.callSites
  | callSite a =>
    have hcode : ∀ b ∈ rs.filterMap Recording.callSite?, b.callKey = a.callKey ↔
        b.place = a.place :=
      fun b hb => Address.AtCall.callKey_eq hp (hrs _ (Recording.mem_callSites.mp hb)) hr
    constructor
    · rw [List.filterMap_append]
      show FirstOf _ (_ ++ []) (f.addCallSite a).signatures
      rw [List.append_nil, signatures_addCallSite]
      exact h.signatures
    · rw [List.filterMap_append]
      show FirstOf _ _ (f.addCallSite a).callSites
      rw [addCallSite, apply_ite Frontier.callSites]
      exact h.callSites.insert hcode

theorem admits_eq_false (hp : ∀ file < p.files.length, (p.file file).tree.Spaced) (h : f.Records rs)
    (hrs : ∀ r ∈ rs, r.Sound p) (hr : r.Sound p) :
    f.admits r = false ↔ r.target ∈ rs.map Recording.target := by
  cases r with
  | signature a =>
    rw [Recording.mem_targets_signature, admits, Bool.not_eq_false', hasSignature]
    exact h.signatures.any_iff fun b hb =>
      Address.AtList.key_eq hp (hrs _ (Recording.mem_signatures.mp hb)) hr
  | callSite a =>
    rw [Recording.mem_targets_callSite, admits, Bool.not_eq_false', hasCallSite]
    exact h.callSites.any_iff fun b hb =>
      Address.AtCall.callKey_eq hp (hrs _ (Recording.mem_callSites.mp hb)) hr

end Records

theorem record_eq_self (f : Frontier) (r : Recording) : f.record r = f ↔ f.admits r = false := by
  cases r with
  | signature a =>
    rw [admits, Bool.not_eq_false', record, addSignature]
    refine ⟨fun hsame => ?_, fun hin => if_pos hin⟩
    by_contra hout
    rw [if_neg hout] at hsame
    simpa using congrArg (fun f => f.signatures.length) hsame
  | callSite a =>
    rw [admits, Bool.not_eq_false', record, addCallSite]
    refine ⟨fun hsame => ?_, fun hin => if_pos hin⟩
    by_contra hout
    rw [if_neg hout] at hsame
    simpa using congrArg (fun f => f.callSites.length) hsame

theorem records_foldl (hp : ∀ file < p.files.length, (p.file file).tree.Spaced)
    (hrs : ∀ r ∈ rs, r.Sound p) : (rs.foldl record empty).Records rs := by
  induction rs using List.reverseRecOn with
  | nil => exact ⟨.nil, .nil⟩
  | append_singleton rs r ih =>
    rw [List.foldl_append]
    have hbefore : ∀ r ∈ rs, r.Sound p := fun r hr => hrs r (List.mem_append_left _ hr)
    exact (ih hbefore).record hp hbefore
      (hrs r (List.mem_append_right _ (List.mem_singleton_self r)))

/-- In trees whose nodes lie in order, calls have the same key just if they are the same call, and
so do parameter lists. So a frontier holds one entry for each node that was recorded, in the order
in which they came first, and a target is turned away just if it was recorded before. -/
theorem record_keys (p : Program) (hp : ∀ file < p.files.length, (p.file file).tree.Spaced) :
    (∀ a b : Address, a.AtCall p → b.AtCall p → (a.callKey = b.callKey ↔ a.place = b.place)) ∧
    (∀ a b : Address, a.AtList p → b.AtList p → (a.key = b.key ↔ a.place = b.place)) ∧
    ∀ rs : List Recording, (∀ r ∈ rs, r.Sound p) → (rs.foldl record empty).Records rs ∧
      ∀ before r after, rs = before ++ r :: after →
        ((before.foldl record empty).admits r = false ↔ ∃ r' ∈ before, r'.target = r.target) ∧
        ((before.foldl record empty).admits r = false ↔
          (before.foldl record empty).record r = before.foldl record empty) := by
  refine ⟨fun a b ha hb => ha.callKey_eq hp hb, fun a b ha hb => ha.key_eq hp hb, fun rs hrs =>
    ⟨records_foldl hp hrs, fun before r after hsplit => ⟨?_, (record_eq_self _ r).symm⟩⟩⟩
  rw [hsplit, List.forall_mem_append, List.forall_mem_cons] at hrs
  obtain ⟨hbefore, hr, -⟩ := hrs
  rw [(records_foldl hp hbefore).admits_eq_false hp hbefore hr, List.mem_map]

def chainedSources : List (Path × String) :=
  [(⟨"main.go"⟩, "package p\n\nfunc f() \x7b\n\tb.With(1).Run(func(n int) \x7b\x7d)\n\x7d\n")]

/-- The calls begin at the same offset. The second one is recorded again by an address that begins
at the first one's parenthesis and ends in the literal. -/
theorem record_keys_chained : ∃ p outer inner again list,
    Program.ofSources (fun _ => none) chainedSources = .ok p ∧
    (∀ file < p.files.length, (p.file file).tree.Spaced) ∧
    resolveRange p 0 23 52 true = .ok outer ∧ resolveRange p 0 23 32 true = .ok inner ∧
    resolveRange p 0 31 38 false = .ok again ∧ resolveRange p 0 41 48 true = .ok list ∧
    (∀ r ∈ [.callSite outer, .signature list, .callSite inner, .callSite again],
      Recording.Sound p r) ∧
    outer.callKey = ⟨0, 36⟩ ∧ inner.callKey = ⟨0, 29⟩ ∧ outer.place = again.place ∧
    ([.callSite outer, .signature list, .callSite inner, .callSite again].foldl record
      empty).Records [.callSite outer, .signature list, .callSite inner, .callSite again] ∧
    ([.callSite outer, .signature list, .callSite inner].foldl record empty).admits
      (.callSite again) = false := by
  have hchecked : (Program.ofSources (fun _ => none) chainedSources).toOption.any (fun p =>
      decide (0 < p.files.length) && (resolveRange p 0 23 52 true).toOption.any fun outer =>
        (resolveRange p 0 23 32 true).toOption.any fun inner =>
          (resolveRange p 0 31 38 false).toOption.any fun again =>
            (resolveRange p 0 41 48 true).toOption.any fun list =>
              [outer, inner, again].all (·.node?.any (·.kind = .callExpression)) &&
              list.node?.any (fun n => n.kind = .parameterList && n.start == 41 && n.stop == 48) &&
              [outer, inner, again].map Address.callKey == [⟨0, 36⟩, ⟨0, 29⟩, ⟨0, 36⟩]) = true := by
    decide +kernel
  obtain ⟨p, hp, hchecked⟩ := any_toOption.mp hchecked
  obtain ⟨hfile, hchecked⟩ := Bool.and_eq_true_iff.mp hchecked
  obtain ⟨outer, houter, hchecked⟩ := any_toOption.mp hchecked
  obtain ⟨inner, hinner, hchecked⟩ := any_toOption.mp hchecked
  obtain ⟨again, hagain, hchecked⟩ := any_toOption.mp hchecked
  obtain ⟨list, hlist, hchecked⟩ := any_toOption.mp hchecked
  simp only [Bool.and_eq_true, List.all_eq_true, List.forall_mem_cons,
    Option.any_eq_true, beq_iff_eq,
    decide_eq_true_eq, List.map_cons, List.cons.injEq] at hfile hchecked
  obtain ⟨⟨⟨hcall, hcall', hcall'', -⟩, n, hn, ⟨hk, hstart⟩, hstop⟩, hkey, hkey', hkey'', -⟩ :=
    hchecked
  have hspaced : ∀ file < p.files.length, (p.file file).tree.Spaced := fun file hfile =>
    (Program.Loaded.sources hp).wellFormed.spaced hfile
  have hat : ∀ {a start stop needExact}, resolveRange p 0 start stop needExact = .ok a →
      (∃ n, a.node? = some n ∧ n.kind = .callExpression) → a.AtCall p := by
    intro a start stop needExact ha hcall
    obtain ⟨hzero, -, -, hpath⟩ := eq_of_resolveRange ha
    exact ⟨hzero ▸ hfile, hpath ▸ Node.path_enclosing .., hcall⟩
  have hlists : list.AtList p := by
    obtain ⟨hzero, hfrom, hto, hpath⟩ := eq_of_resolveRange hlist
    exact ⟨hzero ▸ hfile, hpath ▸ Node.path_enclosing .., n, hn, hk, hfrom.trans hstart.symm,
      hto.trans hstop.symm⟩
  have hsound : ∀ r ∈ [.callSite outer, .signature list, .callSite inner, .callSite again],
      Recording.Sound p r := by
    simp only [List.forall_mem_cons]
    exact ⟨hat houter hcall, hlists, hat hinner hcall', hat hagain hcall'', nofun⟩
  obtain ⟨hcalls, -, hrecords⟩ := record_keys p hspaced
  obtain ⟨hall, hsteps⟩ := hrecords _ hsound
  have hplace : outer.place = again.place :=
    (hcalls outer again (hat houter hcall) (hat hagain hcall'')).mp (hkey.trans hkey''.symm)
  refine ⟨p, outer, inner, again, list, hp, hspaced, houter, hinner, hagain, hlist, hsound, hkey,
    hkey', hplace, hall, ?_⟩
  exact (hsteps [.callSite outer, .signature list, .callSite inner] (.callSite again) [] rfl).1.mpr
    ⟨.callSite outer, List.mem_cons_self, congrArg Sum.inr hplace⟩

end Frontier

end ParamThreading
