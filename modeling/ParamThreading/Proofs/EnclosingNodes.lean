import ParamThreading.Proofs.Independence

/-!
# The smallest node around a range

The way down takes the first child that encloses the range. In a tree whose nodes lie in order
inside each other there is only one such child, so that the way passes through all nodes that
enclose the range and ends at the smallest of them.

* `Node.Orderly`  trees whose nodes lie in order inside each other;
* `Node.Orderly.enclosing_eq`, `Node.Orderly.suffix_iff`  the nodes on the way down;
* `Node.Orderly.path_unique`  a node stands at one place of a tree;
* `Node.Innermost`, `signatureOf_enclosing`  the declaration that a range leads to;
* `Program.WellFormed.orderly`  parsed trees are so;
* `resolveRange_smallest`  ranges, addresses and parameter lists.
-/

namespace ParamThreading

namespace Node

/-! ## trees in order -/

/-- The nodes of a tree that are reached through named nodes lie in order inside each other, and its
declarations have parameter lists. A node may be empty if it is the only one in its parent and does
not end it, as the content of a raw string does. -/
structure Orderly (root : Node) : Prop where
  sourceFile : root.kind = .sourceFile
  ordered : ∀ n ps, Path root (n :: ps) → n.codeChildren.Pairwise fun x y => x.stop ≤ y.start
  filled : ∀ n ps, Path root (n :: ps) → ∀ c ∈ n.codeChildren,
    c.start < c.stop ∨ c.start = c.stop ∧ c.stop < n.stop ∧ n.codeChildren = [c]
  within : ∀ n ps, Path root (n :: ps) → ps ≠ [] →
    ∀ c ∈ n.codeChildren, n.start ≤ c.start ∧ c.stop ≤ n.stop
  declaration : ∀ d ps, Path root (d :: ps) → d.isDeclaration = true →
    ∃ params, d.child? .parameters = some params ∧ params.kind = .parameterList

theorem Path.of_suffix {root x : Node} {ps l : List Node} (h : Path root l) (hs : (x :: ps) <:+ l) :
    Path root (x :: ps) := by
  induction h with
  | root =>
    rcases List.suffix_cons_iff.mp hs with hs | hs
    · rw [hs]
      exact .root
    · cases List.suffix_nil.mp hs
  | child hp hc hn ih =>
    rcases List.suffix_cons_iff.mp hs with hs | hs
    · rw [hs]
      exact .child hp hc hn
    · exact ih hs

namespace Orderly

variable {root x c : Node} {ps qs : List Node} {a b : Nat}

/-- Of the children of a node one at most encloses a range. -/
theorem find?_eq (h : Orderly root) (hpath : Path root (x :: ps)) (hc : c ∈ x.codeChildren)
    (hencloses : c.encloses a b = true) :
    x.children.find? (fun y => y.kind.isNamed && y.encloses a b) = some c := by
  have hfilter : x.children.find? (fun y => y.kind.isNamed && y.encloses a b) =
      x.codeChildren.find? (·.encloses a b) := by
    simp [codeChildren, List.find?_filter]
  rw [hfilter]
  obtain ⟨before, after, hsplit⟩ := List.append_of_mem hc
  refine List.find?_eq_some_iff_append.mpr ⟨hencloses, before, after, hsplit, fun y hy => ?_⟩
  have hordered := h.ordered x ps hpath
  rw [hsplit, List.pairwise_append] at hordered
  have hle := hordered.2.2 y hy c List.mem_cons_self
  have hmem : y ∈ x.codeChildren := by
    rw [hsplit]
    exact List.mem_append_left _ hy
  rcases h.filled x ps hpath y hmem with hlt | ⟨-, -, honly⟩
  · rw [encloses_of_before hle hencloses (.inr hlt)]
    rfl
  · -- an empty child has no siblings
    have hlength := congrArg List.length (hsplit.symm.trans honly)
    have hpos := List.length_pos_of_mem hy
    rw [List.length_append, List.length_cons, List.length_singleton] at hlength
    omega

theorem encloses_parent (h : Orderly root) (hpath : Path root (x :: ps)) (hne : ps ≠ [])
    (hc : c ∈ x.codeChildren) (hab : a ≤ b) (hencloses : c.encloses a b = true) :
    x.encloses a b = true := by
  obtain ⟨h₁, h₂, h₃⟩ := encloses_iff.mp hencloses
  obtain ⟨h₄, h₅⟩ := h.within x ps hpath hne c hc
  refine encloses_iff.mpr ⟨h₄.trans h₁, h₂.trans h₅, ?_⟩
  rcases h.filled x ps hpath c hc with hlt | ⟨hempty, hlast, -⟩
  · omega
  · omega

theorem enclosing_eq (h : Orderly root) (hab : a ≤ b) (hpath : Path root (x :: ps))
    (hx : ps ≠ [] → x.encloses a b = true) : root.enclosing a b = x.enclosing a b ++ ps := by
  generalize hl : x :: ps = l at hpath
  induction hpath generalizing x ps with
  | root =>
    cases hl
    rw [List.append_nil]
  | @child c p qs hp hmem hnamed ih =>
    cases hl
    have hc : c ∈ p.codeChildren := List.mem_filter.mpr ⟨hmem, hnamed⟩
    have hencloses := hx (List.cons_ne_nil p qs)
    rw [ih (fun hne => h.encloses_parent hp hne hc hab hencloses) rfl, Node.enclosing_eq,
      h.find?_eq hp hc hencloses]
    simp

theorem suffix_iff (h : Orderly root) (hab : a ≤ b) (hpath : Path root (x :: ps)) (hne : ps ≠ []) :
    (x :: ps) <:+ root.enclosing a b ↔ x.encloses a b = true := by
  refine ⟨fun hs => (encloses_of_suffix hs).resolve_left fun hroot => hne hroot.2, fun hx => ?_⟩
  rw [h.enclosing_eq hab hpath fun _ => hx, Node.enclosing_eq, List.append_assoc]
  exact List.suffix_append ..

theorem path_unique (h : Orderly root) (hx : x.start ≤ x.stop) (hp : Path root (x :: ps))
    (hq : Path root (x :: qs)) : ps = qs := by
  have hself : x.encloses x.start x.stop = true := encloses_iff.mpr ⟨le_rfl, le_rfl, by omega⟩
  have heq := (h.enclosing_eq hx hp fun _ => hself).symm.trans (h.enclosing_eq hx hq fun _ => hself)
  exact List.append_cancel_left heq

end Orderly

/-! ## declarations around a range -/

/-- The innermost of the declarations that enclose a range. -/
structure Innermost (root : Node) (a b : Nat) (d : Node) (above : List Node) : Prop where
  path : Path root (d :: above)
  isDeclaration : d.isDeclaration = true
  encloses : d.encloses a b = true
  innermost : ∀ e es, Path root (e :: es) → e.isDeclaration = true → e.encloses a b = true →
    (e :: es) <:+ d :: above

namespace Orderly

variable {root d : Node} {ps : List Node} {a b : Nat}

theorem ne_nil_of_declaration (h : Orderly root) (hpath : Path root (d :: ps))
    (hd : d.isDeclaration = true) : ps ≠ [] := by
  rintro rfl
  cases hpath
  rw [isDeclaration_eq, h.sourceFile] at hd
  cases hd

/-- The first declaration on the way up is the innermost one around the range. -/
theorem innermost_of_split (h : Orderly root) (hab : a ≤ b) {inner above : List Node}
    (hsplit : root.enclosing a b = inner ++ d :: above) (hd : d.isDeclaration = true)
    (hinner : ∀ n ∈ inner, n.isDeclaration = false) : Innermost root a b d above := by
  have hsuffix : (d :: above) <:+ root.enclosing a b := by
    rw [hsplit]
    exact List.suffix_append ..
  have hpath := (path_enclosing root a b).of_suffix hsuffix
  have hencloses := (h.suffix_iff hab hpath (h.ne_nil_of_declaration hpath hd)).mp hsuffix
  refine ⟨hpath, hd, hencloses, fun e es he hdecl hin => ?_⟩
  have hes := (h.suffix_iff hab he (h.ne_nil_of_declaration he hdecl)).mpr hin
  rcases List.suffix_or_suffix_of_suffix hes hsuffix with hle | ⟨below, hbelow⟩
  · exact hle
  · cases below with
    | nil =>
      rw [← hbelow]
      exact List.suffix_refl _
    | cons n below =>
      -- a declaration farther down would have come first
      obtain ⟨rfl, -⟩ := List.cons.inj hbelow
      rw [← hbelow, hsplit] at hes
      obtain ⟨more, hmore⟩ := hes
      rw [← List.append_assoc] at hmore
      have hsame := List.append_cancel_right hmore
      rw [hinner n (by rw [← hsame]; simp)] at hdecl
      cases hdecl

end Orderly

end Node

theorem parameterPath?_eq_none {path : List Node} (h : parameterPath? path = none) :
    ∀ d ∈ path, d.isDeclaration = true → d.child? .parameters = none := by
  induction path with
  | nil => exact nofun
  | cons n path ih =>
    rw [parameterPath?] at h
    intro d hmem hd
    rcases List.mem_cons.mp hmem with rfl | hmem
    · rw [if_pos hd] at h
      cases hparams : d.child? .parameters with
      | none => rfl
      | some params =>
        rw [hparams] at h
        cases h
    · refine ih ?_ d hmem hd
      split at h
      · split at h
        · cases h
        · exact h
      · exact h

theorem Node.Orderly.parameterPath?_cases {root : Node} (h : root.Orderly) {a b : Nat}
    (hab : a ≤ b) :
    (∃ d above params, root.Innermost a b d above ∧ d.child? .parameters = some params ∧
        parameterPath? (root.enclosing a b) = some (params :: d :: above)) ∨
      (∀ d ps, Path root (d :: ps) → d.isDeclaration = true → d.encloses a b = false) ∧
        parameterPath? (root.enclosing a b) = none := by
  have hreached : ∀ n ∈ root.enclosing a b, n.isDeclaration = true →
      n.child? .parameters ≠ none := by
    intro n hn hdecl hnone
    obtain ⟨inner, above, hsplit⟩ := List.append_of_mem hn
    have hpath := (path_enclosing root a b).of_suffix (x := n) ⟨inner, hsplit.symm⟩
    obtain ⟨params, hparams, -⟩ := h.declaration n above hpath hdecl
    cases hparams.symm.trans hnone
  cases hfound : parameterPath? (root.enclosing a b) with
  | some found =>
    obtain ⟨inner, d, above, params, hsplit, hinner, hd, hparams, rfl⟩ :=
      exists_of_parameterPath? hfound
    refine .inl ⟨d, above, params, h.innermost_of_split hab hsplit hd fun n hn => ?_, hparams, rfl⟩
    rw [← Bool.not_eq_true]
    intro hdecl
    exact hreached n (by rw [hsplit]; exact List.mem_append_left _ hn) hdecl (hinner n hn hdecl)
  | none =>
    refine .inr ⟨fun d ps hpath hd => ?_, rfl⟩
    rw [← Bool.not_eq_true]
    intro hencloses
    have hsuffix := (h.suffix_iff hab hpath (h.ne_nil_of_declaration hpath hd)).mpr hencloses
    have hmem := hsuffix.subset List.mem_cons_self
    exact hreached d hmem hd (parameterPath?_eq_none hfound d hmem hd)

/-! ## parsed trees -/

namespace Grammar

open Rule

def isRaw : Kind → Bool
  | .rawStringLiteral => true
  | _ => false

def makesRaw : Symbol → Bool
  | .stringLiteral => true
  | _ => false

/-- Raw strings are no leaves and come from one symbol only. All other forms yield nodes that cover
some text. -/
def rawsPass (s : Symbol) : Bool :=
  (makesRaw s || (rule s).forms.all (!isRaw ·.1)) && (rule s).leaves.all (!isRaw ·) &&
    (rule s).forms.all fun p => isRaw p.1 || p.2.yields Kind.isSolid

theorem rawsPass_all (s : Symbol) : rawsPass s = true := by
  refine forall_symbol (by decide +kernel) (fun f level => ?_) s
  obtain ⟨line, block, send, guard⟩ := f
  cases line <;> rfl

theorem isRaw_of_child {n c : Node} {among : Symbol → Prop} (hn : Made rule among n)
    (hc : c ∈ n.children) (hk : c.kind.isSolid = false) : isRaw n.kind = true := by
  cases hn with
  | leaf hnil _ =>
    rw [hnil] at hc
    cases hc
  | @form s r _ _ _ _ hform hh hread =>
    have hpass := rawsPass_all s
    simp only [rawsPass, Bool.and_eq_true, List.all_eq_true, Bool.or_eq_true] at hpass
    rcases hpass.2 _ hform with hraw | hyields
    · exact hraw
    · rw [hread.kinds (fun s => (checked s).solid) hyields (fun x hx => (hh x hx).2) c hc] at hk
      cases hk

/-- The content of a raw string stands alone between its quotes. -/
theorem raw_content {tokens : List Token} {hi : Nat} {n : Node}
    (hn : Formed rule putsHeld tokens hi n) (hk : isRaw n.kind = true) :
    ∃ c, n.codeChildren = [c] ∧ c.start ≤ c.stop ∧ c.stop < n.stop := by
  cases hn with
  | leaf hleaf =>
    rcases hleaf with hleaf | ⟨s, hleaf⟩
    · rw [hleaf] at hk
      cases hk
    · have hpass := rawsPass_all s
      simp only [rawsPass, Bool.and_eq_true, List.all_eq_true, Bool.not_eq_true'] at hpass
      rw [hpass.1.2 _ hleaf] at hk
      cases hk
  | @form s r _ _ _ _ hform _ hcursor hread _ hstop =>
    have hpass := rawsPass_all s
    simp only [rawsPass, Bool.and_eq_true, Bool.or_eq_true, List.all_eq_true, Bool.not_eq_true']
      at hpass
    have hs : makesRaw s = true := hpass.1.1.resolve_right fun hnone => by
      rw [hnone _ hform] at hk
      cases hk
    obtain rfl : s = .stringLiteral := by
      unfold makesRaw at hs
      split at hs
      · rfl
      · cases hs
    have hmem : r ∈ ((rule .stringLiteral).forms.filter (isRaw ·.1)).map (·.2) :=
      List.mem_map.mpr ⟨(n.kind, r), List.mem_filter.mpr ⟨hform, hk⟩, rfl⟩
    cases List.mem_singleton.mp hmem
    obtain ⟨_, _, _, hxs, hopen, h₁⟩ := reads_seq hread
    obtain ⟨_, _, _, rfl, hcontent, hclose⟩ := reads_seq h₁
    cases hopen with
    | token hopen =>
      cases hcontent with
      | leaf hcontent =>
        cases hclose with
        | token hclose =>
          obtain ⟨-, -, -, -, hrest⟩ := Terminal.take_chained hopen hcursor.valid
          obtain ⟨-, -, hle, -, hrest⟩ := Terminal.take_chained hcontent hrest
          obtain ⟨-, hnext, -, hlt, -⟩ := Terminal.take_chained hclose hrest
          rw [hxs] at hstop
          refine ⟨.mk .rawStringLiteralContent none _ _ [],
            by rw [Node.codeChildren, hxs]; rfl, hle, ?_⟩
          rw [hstop]
          exact hnext.trans_lt (hlt rfl)

end Grammar

section
variable {p : Program} {file : FileId} {n : Node} {ps : List Node}

theorem Program.hasNode_of_path (hfile : file < p.files.length)
    (h : Node.Path (p.file file).tree (n :: ps)) (hne : ps ≠ []) : p.HasNode file n := by
  refine ⟨hfile, ?_, ?_⟩
  · obtain ⟨inner, hinner, hbelow⟩ := h.split
    cases inner with
    | nil =>
      cases hinner
      exact absurd rfl hne
    | cons x inner =>
      obtain ⟨rfl, -⟩ := List.cons.inj hinner
      exact hbelow n List.mem_cons_self
  · cases h with
    | root => exact absurd rfl hne
    | child _ _ hnamed => exact hnamed

theorem Program.WellFormed.orderly (hp : p.WellFormed) (hfile : file < p.files.length) :
    (p.file file).tree.Orderly := by
  have htree := hp.tree _ (Program.file_mem hfile)
  have hroot := Grammar.kind_of_parse (hp.parsed _ (Program.file_mem hfile))
  refine ⟨hroot, fun n ps hpath => ?_, fun n ps hpath c hc => ?_, fun n ps hpath hne c hc => ?_,
    fun d ps hpath hd => ?_⟩
  · refine List.pairwise_filter.mpr ((htree.path hpath).1.imp fun {x y} hxy _ hy => ?_)
    exact hxy.2.2 hy
  · obtain ⟨-, hneat, hbelow⟩ := htree.path hpath
    have hmem := (List.mem_filter.mp hc).1
    by_cases hsolid : c.kind.isSolid = true
    · exact .inl ((hneat c hmem).self.filled hsolid)
    · rw [Bool.not_eq_true] at hsolid
      by_cases hps : ps = []
      · subst hps
        cases hpath
        exact .inl (htree.filled c hmem)
      · have hnode := Program.hasNode_of_path hfile hpath hps
        have hraw := Grammar.isRaw_of_child (hnode.made hp).self hmem hsolid
        obtain ⟨c', honly, hle, hlt⟩ := Grammar.raw_content (hnode.formed hp).self hraw
        rw [honly] at hc
        cases List.mem_singleton.mp hc
        rcases Nat.lt_or_eq_of_le hle with hle | hle
        · exact .inl hle
        · exact .inr ⟨hle, hlt, honly⟩
  · exact ((htree.path hpath).2.2 hne).1.self.within c (List.mem_filter.mp hc).1
  · rcases Node.mem_everything.mp (hpath.mem_everything d List.mem_cons_self)
      with rfl | ⟨c, hc, hdc⟩
    · rw [Node.isDeclaration_eq, hroot] at hd
      cases hd
    · cases htree.top c hc d hdc hd
      obtain ⟨params, hshape, -⟩ := htree.declaration d hc hd
      exact ⟨params, hshape.parameters, hshape.list⟩

end

/-! ## ranges -/

theorem Node.role_of_child? {n c : Node} {r : Role} (h : n.child? r = some c) :
    c.role = some r := by
  have hfound := List.find?_some h
  exact beq_iff_eq.mp hfound

/-- The parameter list of a declaration is neither its receiver nor its result, and it is that of no
function literal. -/
theorem Node.Orderly.parameters_apart {root d params : Node} {ps : List Node} (h : root.Orderly)
    (hpath : Node.Path root (d :: ps)) (hdecl : d.isDeclaration = true)
    (hparams : d.child? .parameters = some params) :
    params.kind = .parameterList ∧ d.child? .receiver ≠ some params ∧
      d.child? .result ≠ some params ∧
      ∀ l ls, Node.Path root (l :: ls) → l.kind = .funcLiteral →
        l.child? .parameters ≠ some params := by
  obtain ⟨params', hparams', hkind⟩ := h.declaration d ps hpath hdecl
  cases hparams.symm.trans hparams'
  have hrole := Node.role_of_child? hparams
  refine ⟨hkind, fun hreceiver => ?_, fun hresult => ?_, fun l ls hl hlit hliteral => ?_⟩
  · cases hrole.symm.trans (Node.role_of_child? hreceiver)
  · cases hrole.symm.trans (Node.role_of_child? hresult)
  · -- one node in both of them would have two ways up
    have hnamed : params.kind.isNamed = true := by rw [hkind]; rfl
    have hmem := List.mem_of_find?_eq_some hparams
    have hle : params.start ≤ params.stop := by
      rcases h.filled d ps hpath params (List.mem_filter.mpr ⟨hmem, hnamed⟩) with hlt | ⟨hempty, -⟩
      · exact hlt.le
      · exact hempty.le
    have hmem' := List.mem_of_find?_eq_some hliteral
    obtain ⟨rfl, -⟩ := List.cons.inj
      (h.path_unique hle (.child hpath hmem hnamed) (.child hl hmem' hnamed))
    rw [Node.isDeclaration_eq, hlit] at hdecl
    cases hdecl

theorem resolveRange_eq (program : Program) (file : FileId) {start stop : Nat} (needExact : Bool)
    (hab : start ≤ stop) (hsize : stop ≤ (program.file file).text.utf8ByteSize) :
    ∃ inner above, (program.file file).tree.enclosing start stop = inner :: above ∧
      resolveRange program file start stop needExact =
        if needExact = true ∧ ¬ (inner.start = start ∧ inner.stop = stop) then
          .error (.ambiguousSelection inner.kind)
        else .ok ⟨file, start, stop, inner :: above,
          decide (inner.start = start ∧ inner.stop = stop)⟩ := by
  cases hpath : (program.file file).tree.enclosing start stop with
  | nil =>
    rw [Node.enclosing_eq] at hpath
    simp at hpath
  | cons inner above =>
    refine ⟨inner, above, rfl, ?_⟩
    have hvalid : (start > stop || stop > (program.file file).text.utf8ByteSize) = false := by
      simp [hab, hsize]
    have hexact : (inner.start == start && inner.stop == stop) =
        decide (inner.start = start ∧ inner.stop = stop) := by
      simp [Bool.decide_and, beq_eq_decide]
    simp only [resolveRange, hvalid, hpath, List.head?_cons, Option.getD_some, hexact]
    by_cases hsame : inner.start = start ∧ inner.stop = stop
    · simp [hsame]
    · cases needExact <;> simp [hsame]

/-- The address of a range leads to the parameter list of the innermost declaration around the
range, if there is one. -/
theorem signatureOf_enclosing (program : Program) {root : Node} (h : root.Orderly) {a : Address}
    {start stop : Nat} (hab : start ≤ stop) (ha : a.path = root.enclosing start stop) :
    ((∃ s, signatureOf program a = .ok s) ↔ ∃ d ps, Node.Path root (d :: ps) ∧
      d.isDeclaration = true ∧ d.encloses start stop = true) ∧
    ∀ s, signatureOf program a = .ok s → ∃ d above params, root.Innermost start stop d above ∧
      d.child? .parameters = some params ∧ s = .ofNode a.file params (d :: above) := by
  rcases h.parameterPath?_cases hab with ⟨d, above, params, hin, hparams, hfound⟩ | ⟨hnone, hfound⟩
  · have hsignature : signatureOf program a = .ok (.ofNode a.file params (d :: above)) := by
      rw [signatureOf, Address.signature?, ha, hfound]
    refine ⟨⟨fun _ => ⟨d, above, hin.path, hin.isDeclaration, hin.encloses⟩,
      fun _ => ⟨_, hsignature⟩⟩, ?_⟩
    intro s hs
    cases hsignature.symm.trans hs
    exact ⟨d, above, params, hin, hparams, rfl⟩
  · have hsignature : signatureOf program a = .error (.outsideFunction (a.location program)) := by
      rw [signatureOf, Address.signature?, ha, hfound]
    refine ⟨⟨?_, ?_⟩, ?_⟩
    · rintro ⟨s, hs⟩
      cases hsignature.symm.trans hs
    · rintro ⟨d, ps, hpath, hd, hencloses⟩
      rw [hnone d ps hpath hd] at hencloses
      cases hencloses
    · intro s hs
      cases hsignature.symm.trans hs

/-- Of the nodes in a file that enclose a range, the path of its address passes through all and
through nothing else but the root. There is no address for a range that is not in the file, or if an
exact one is asked for and the smallest of these nodes covers more. The address leads to a parameter
list just if a declaration encloses the range, and then to that of the innermost one. -/
theorem resolveRange_smallest (program : Program) (file : FileId) (start stop : Nat)
    (needExact : Bool) (h : (program.file file).tree.Orderly) :
    let root := (program.file file).tree
    let result := resolveRange program file start stop needExact
    let outside := stop < start ∨ (program.file file).text.utf8ByteSize < stop
    (result = .error (.noSyntaxAt (program.file file).path start stop) ↔ outside) ∧
    (¬ outside → ∃ inner above, Node.Path root (inner :: above) ∧
      (∀ n ps, Node.Path root (n :: ps) → ps ≠ [] →
        ((n :: ps) <:+ inner :: above ↔ n.encloses start stop = true)) ∧
      (result = .error (.ambiguousSelection inner.kind) ↔
        needExact = true ∧ ¬ (inner.start = start ∧ inner.stop = stop)) ∧
      (¬ (needExact = true ∧ ¬ (inner.start = start ∧ inner.stop = stop)) → ∃ a, result = .ok a ∧
        a.file = file ∧ a.start = start ∧ a.stop = stop ∧ a.path = inner :: above ∧
        (a.exact = true ↔ inner.start = start ∧ inner.stop = stop) ∧
        ((∃ s, signatureOf program a = .ok s) ↔ ∃ d ps, Node.Path root (d :: ps) ∧
          d.isDeclaration = true ∧ d.encloses start stop = true) ∧
        ∀ s, signatureOf program a = .ok s → ∃ d above params, root.Innermost start stop d above ∧
          d.child? .parameters = some params ∧ params.kind = .parameterList ∧
          s = .ofNode file params (d :: above) ∧
          d.child? .receiver ≠ some params ∧ d.child? .result ≠ some params ∧
          ∀ l ls, Node.Path root (l :: ls) → l.kind = .funcLiteral →
            l.child? .parameters ≠ some params)) := by
  intro root result outside
  by_cases hout : outside
  · have hresult : result = .error (.noSyntaxAt (program.file file).path start stop) := by
      have hinvalid : (start > stop || stop > (program.file file).text.utf8ByteSize) = true := by
        simpa using hout
      simp only [result, resolveRange, hinvalid, if_true]
    exact ⟨⟨fun _ => hout, fun _ => hresult⟩, fun hin => absurd hout hin⟩
  obtain ⟨hab, hsize⟩ := not_or.mp hout
  have hab := Nat.le_of_not_lt hab
  obtain ⟨inner, above, hpath, hresult⟩ :=
    resolveRange_eq program file needExact hab (Nat.le_of_not_lt hsize)
  change result = _ at hresult
  have hresolved := Node.path_enclosing root start stop
  have hsuffix : ∀ n ps, Node.Path root (n :: ps) → ps ≠ [] →
      ((n :: ps) <:+ inner :: above ↔ n.encloses start stop = true) := fun n ps hn hne =>
    hpath ▸ h.suffix_iff hab hn hne
  by_cases hwide : needExact = true ∧ ¬ (inner.start = start ∧ inner.stop = stop)
  · rw [if_pos hwide] at hresult
    refine ⟨⟨fun hnone => ?_, fun h' => absurd h' hout⟩,
      fun _ => ⟨inner, above, hpath ▸ hresolved, hsuffix,
      ⟨fun _ => hwide, fun _ => hresult⟩, fun hnot => absurd hwide hnot⟩⟩
    cases hresult.symm.trans hnone
  · rw [if_neg hwide] at hresult
    refine ⟨⟨fun hnone => ?_, fun h' => absurd h' hout⟩,
      fun _ => ⟨inner, above, hpath ▸ hresolved, hsuffix,
      ⟨fun herror => ?_, fun h' => absurd h' hwide⟩, fun _ => ⟨_, hresult, rfl, rfl, rfl, rfl,
        decide_eq_true_iff, ?_⟩⟩⟩
    · cases hresult.symm.trans hnone
    · cases hresult.symm.trans herror
    · obtain ⟨hsucceeds, hsignature⟩ := signatureOf_enclosing program h hab
        (a := ⟨file, start, stop, inner :: above, decide (inner.start = start ∧ inner.stop = stop)⟩)
        hpath.symm
      refine ⟨hsucceeds, fun s hs => ?_⟩
      obtain ⟨d, above, params, hin, hparams, hs⟩ := hsignature s hs
      obtain ⟨hkind, hapart⟩ := h.parameters_apart hin.path hin.isDeclaration hparams
      exact ⟨d, above, params, hin, hparams, hkind, hs, hapart⟩

def literalSources : List (Path × String) :=
  [(⟨"literal.go"⟩,
    "package p\n\nfunc (t T) m(n int) (r string) \x7b\n\treturn func(s int) string " ++
    "\x7b return `` \x7d(n)\n\x7d\n")]

/-- Between the quotes of the raw string. -/
theorem resolveRange_smallest_literal : ∃ p a s,
    Program.ofSources (fun _ => none) literalSources = .ok p ∧ (p.file 0).tree.Orderly ∧
    resolveRange p 0 81 81 true = .ok a ∧ signatureOf p a = .ok s ∧ s.start = 23 ∧
    (∃ inner above, Node.Path (p.file 0).tree (inner :: above) ∧ a.path = inner :: above ∧
      ∀ n ps, Node.Path (p.file 0).tree (n :: ps) → ps ≠ [] →
        ((n :: ps) <:+ inner :: above ↔ n.encloses 81 81 = true)) ∧
    ∃ d above params, (p.file 0).tree.Innermost 81 81 d above ∧ d.child? .parameters = some params ∧
      params.kind = .parameterList ∧ s = .ofNode 0 params (d :: above) ∧
      d.child? .receiver ≠ some params ∧ d.child? .result ≠ some params ∧
      ∀ l ls, Node.Path (p.file 0).tree (l :: ls) → l.kind = .funcLiteral →
        l.child? .parameters ≠ some params := by
  have hchecked : (Program.ofSources (fun _ => none) literalSources).toOption.any (fun p =>
      decide (0 < p.files.length) && (resolveRange p 0 81 81 true).toOption.any fun a =>
        (signatureOf p a).toOption.any fun s => s.start == 23) = true := by
    decide +kernel
  obtain ⟨p, hp, hchecked⟩ := any_toOption.mp hchecked
  obtain ⟨hfile, hchecked⟩ := Bool.and_eq_true_iff.mp hchecked
  obtain ⟨a, ha, hchecked⟩ := any_toOption.mp hchecked
  obtain ⟨s, hs, hstart⟩ := any_toOption.mp hchecked
  have horderly : (p.file 0).tree.Orderly :=
    (Program.Loaded.sources hp).wellFormed.orderly (of_decide_eq_true hfile)
  obtain ⟨hout, hin⟩ := resolveRange_smallest p 0 81 81 true horderly
  obtain ⟨inner, above, hpath, hsuffix, hwide, hok⟩ := hin fun h => by
    cases ha.symm.trans (hout.mpr h)
  obtain ⟨a', ha', -, -, -, hpath', -, -, hsignature⟩ := hok fun h => by
    cases ha.symm.trans (hwide.mpr h)
  cases ha.symm.trans ha'
  exact ⟨p, a, s, hp, horderly, ha, hs, beq_iff_eq.mp hstart,
    ⟨inner, above, hpath, hpath', hsuffix⟩, hsignature s hs⟩

end ParamThreading
