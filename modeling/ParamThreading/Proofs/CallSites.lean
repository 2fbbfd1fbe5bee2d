import ParamThreading.Proofs.FunctionTable

/-!
# The call sites of a call graph

A site is a call expression below an item, and the function that calls there is the item's own or a
literal in it.

* `Names.mem_edgesFrom`  what an edge from a node can be;
* `Names.edgesFrom_caller`, `Names.edgesFrom_site`  the callers and the sites of the edges from a
  node;
* `CallGraph.SiteOf`  a site in an item, with its caller;
* `CallGraph.siteOf_edge`  every site of the graph of a program is one.
-/

namespace ParamThreading

open Rule Grammar

/-! ## edges from a node -/

namespace Names

variable {names : Names} {file : FileId} {bs : Bindings}

theorem mem_edgesIn {current : FunctionId} {portion : Portion} {cs : List Node} {e : Edge}
    (h : e ∈ names.edgesIn file bs current portion cs) :
    ∃ c ∈ cs, c.kind.isNamed = true ∧ ∃ called, e ∈ names.edgesFrom file bs current called c := by
  induction cs with
  | nil => cases h
  | cons c cs ih =>
    rw [edgesIn] at h
    rcases List.mem_append.mp h with h | h
    · split at h
      case isTrue => cases h
      case isFalse hskip =>
        simp only [Bool.or_eq_true, not_or, Bool.not_eq_true', Bool.not_eq_false] at hskip
        exact ⟨c, List.mem_cons_self, hskip.1.1, _, h⟩
    · obtain ⟨d, hd, hrest⟩ := ih h
      exact ⟨d, List.mem_cons_of_mem c hd, hrest⟩

/-- An edge from a node is the node's own, or it comes from a child of it. The function in hand
changes only at a literal. -/
theorem mem_edgesFrom {current : FunctionId} {called : Bool} {n : Node} {e : Edge}
    (he : e ∈ names.edgesFrom file bs current called n) :
    (e.caller = current ∧ ∀ site, e.site = some site → site = ⟨file, n⟩ ∧
      n.kind = .callExpression) ∨
    ∃ c ∈ n.children, c.kind.isNamed = true ∧ ∃ inner called',
      e ∈ names.edgesFrom file bs inner called' c ∧ (inner = current ∨
        n.kind = .funcLiteral ∧ functionAt? names.functions file n.start = some inner) := by
  have hin : ∀ portion, e ∈ names.edgesIn file bs current portion n.children →
      ∃ c ∈ n.children, c.kind.isNamed = true ∧ ∃ inner called',
        e ∈ names.edgesFrom file bs inner called' c ∧ (inner = current ∨
          n.kind = .funcLiteral ∧ functionAt? names.functions file n.start = some inner) := by
    intro portion h
    obtain ⟨c, hc, hn, called', h⟩ := mem_edgesIn h
    exact ⟨c, hc, hn, current, called', h, .inl rfl⟩
  have hvalue : ∀ o : Option FunctionId, e ∈ o.toList.map (fun f => (⟨current, f, none⟩ : Edge)) →
      e.caller = current ∧ ∀ site, e.site = some site → site = ⟨file, n⟩ ∧
        n.kind = .callExpression := by
    intro o h
    obtain ⟨_, -, rfl⟩ := List.mem_map.mp h
    exact ⟨rfl, nofun⟩
  obtain ⟨k, r, a, b, cs⟩ := n
  unfold edgesFrom at he
  split at he
  · split at he
    case h_1 literal hat =>
      rcases List.mem_cons.mp he with rfl | he
      · exact .inl ⟨rfl, nofun⟩
      · obtain ⟨c, hc, hn, called', h⟩ := mem_edgesIn he
        exact .inr ⟨c, hc, hn, literal, called', h, .inr ⟨rfl, hat⟩⟩
    case h_2 => exact .inr (hin .all he)
  · rcases List.mem_append.mp he with he | he
    · obtain ⟨callee, -, rfl⟩ := List.mem_map.mp he
      refine .inl ⟨rfl, fun site hsite => ?_⟩
      cases hsite
      exact ⟨rfl, rfl⟩
    · exact .inr (hin .call he)
  · split at he
    · cases he
    · exact .inl (hvalue _ he)
  · split at he
    · exact .inr (hin .operand he)
    · rcases List.mem_append.mp he with he | he
      · exact .inl (hvalue _ he)
      · exact .inr (hin .all he)
  · exact .inr (hin .declaration he)
  · exact .inr (hin .declaration he)
  · exact .inr (hin .all he)

theorem edgesFrom_caller {current : FunctionId} {called : Bool} {n : Node} {e : Edge}
    (he : e ∈ names.edgesFrom file bs current called n) :
    e.caller = current ∨ ∃ l ∈ n.backward, l.kind = .funcLiteral ∧
      functionAt? names.functions file l.start = some e.caller := by
  induction n using Node.induct generalizing current called with
  | step n ih =>
    rcases mem_edgesFrom he with ⟨hcaller, -⟩ | ⟨c, hc, hn, inner, called', he, hinner⟩
    · exact .inl hcaller
    · have hcode : c ∈ n.codeChildren.reverse := List.mem_reverse.mpr (List.mem_filter.mpr ⟨hc, hn⟩)
      rw [Node.backward_eq]
      rcases ih c hc he with rfl | ⟨l, hl, hlk, hat⟩
      · exact hinner.imp_right fun hlit => ⟨n, List.mem_cons_self, hlit⟩
      · exact .inr ⟨l, List.mem_cons_of_mem n (List.mem_flatMap.mpr ⟨c, hcode, hl⟩), hlk, hat⟩

theorem edgesFrom_site {current : FunctionId} {called : Bool} {n : Node} {e : Edge}
    {site : CallSite}
    (he : e ∈ names.edgesFrom file bs current called n) (hsite : e.site = some site) :
    site.file = file ∧ site.node.kind = .callExpression ∧ ∃ ps, Node.Path n (site.node :: ps) := by
  induction n using Node.induct generalizing current called with
  | step n ih =>
    rcases mem_edgesFrom he with ⟨-, hown⟩ | ⟨c, hc, hn, inner, called', he, -⟩
    · obtain ⟨rfl, hk⟩ := hown site hsite
      exact ⟨rfl, hk, [], .root⟩
    · obtain ⟨hfile, hk, ps, hpath⟩ := ih c hc he
      exact ⟨hfile, hk, ps ++ [n], hpath.trans (.child .root hc hn)⟩

/-! ## the names of a program -/

theorem scan_foldl (items : List Item) (acc : Names × List (Item × Bindings)) :
    (items.foldl scan acc).1.program = acc.1.program ∧
    (items.foldl scan acc).1.functions = acc.1.functions ∧
    (items.foldl scan acc).2.map (·.1) = acc.2.map (·.1) ++ items := by
  induction items generalizing acc with
  | nil => exact ⟨rfl, rfl, (List.append_nil _).symm⟩
  | cons i items ih =>
    obtain ⟨h₁, h₂, h₃⟩ := ih (scan acc i)
    have hp : (scan acc i).1.program = acc.1.program := by
      simp only [scan, exporting]
      split <;> rfl
    have hf : (scan acc i).1.functions = acc.1.functions := by
      simp only [scan, exporting]
      split <;> rfl
    refine ⟨h₁.trans hp, h₂.trans hf, h₃.trans ?_⟩
    simp [scan]

variable (p : Program)

@[simp] theorem program_ofProgram : (ofProgram p).1.program = p := (scan_foldl p.items _).1

@[simp] theorem functions_ofProgram : (ofProgram p).1.functions = p.functions :=
  (scan_foldl p.items _).2.1

theorem items_ofProgram : (ofProgram p).2.map (·.1) = p.items := (scan_foldl p.items _).2.2

end Names

/-! ## callers -/

namespace Program

variable {p : Program}

theorem functions_eq : p.functions = ⟨.root, none⟩ :: ⟨.testMain, none⟩ ::
    ((List.range p.packages.length).map (fun id => ⟨.packageInit id, none⟩) ++
      (List.range p.files.length).flatMap p.declaredIn ++ p.items.flatMap p.literalsIn) := by
  simp [functions]

theorem functions_init {package : PackageId} (h : package < p.packages.length) :
    p.functions[initFunction package]? = some ⟨.packageInit package, none⟩ := by
  have hlt : package < ((List.range p.packages.length).map
      fun id => (⟨.packageInit id, none⟩ : FunctionNode)).length := by simpa using h
  rw [functions_eq, initFunction, Nat.add_comm, List.getElem?_cons_succ, List.getElem?_cons_succ,
    List.append_assoc, List.getElem?_append_left hlt]
  simp [h]

/-- A caller that is known in the table: it is not one of those that stand for the start of the
program or of its tests, and its kind tells whether it stands in a declaration. -/
structure CallerOf (p : Program) (id : FunctionId) (inDeclaration : Bool) : Prop where
  synthetic : CallGraph.isSynthetic id = false
  kind : ∃ f, p.functions[id]? = some f ∧
    (CallerKind.ofFunction f.kind = .function ↔ inDeclaration = true)

theorem callerOf {id : FunctionId} {f : FunctionNode} {inDeclaration : Bool}
    (hf : p.functions[id]? = some f) (hroot : f.kind ≠ .root) (htest : f.kind ≠ .testMain)
    (hkind : CallerKind.ofFunction f.kind = .function ↔ inDeclaration = true) :
    p.CallerOf id inDeclaration := by
  refine ⟨?_, f, hf, hkind⟩
  rw [functions_eq] at hf
  rcases id with _ | _ | id
  · cases hf
    exact absurd rfl hroot
  · cases hf
    exact absurd rfl htest
  · rfl

theorem callerOf_functionAt (hp : p.WellFormed) {f : FunctionNode} {file : FileId} {n : Node}
    {id : FunctionId} (hf : f ∈ p.functions) (hfile : f.kind.file? = some file)
    (hn : f.node = some n) (hid : functionAt? p.functions file n.start = some id)
    {inDeclaration : Bool}
    (hkind : CallerKind.ofFunction f.kind = .function ↔ inDeclaration = true) :
    p.CallerOf id inDeclaration := by
  obtain ⟨id', hid'⟩ := List.getElem?_of_mem hf
  cases hid.symm.trans (functionAt?_eq hp hid' hfile hn)
  refine callerOf hid' (fun h => ?_) (fun h => ?_) hkind
  · rw [h] at hfile; cases hfile
  · rw [h] at hfile; cases hfile

theorem mem_functions_of_declared {file : FileId} (hfile : file < p.files.length) {f : FunctionNode}
    (hf : f ∈ p.declaredIn file) : f ∈ p.functions := by
  unfold functions
  refine List.mem_append_left _ (List.mem_append_right _ ?_)
  exact List.mem_flatMap.mpr ⟨file, List.mem_range.mpr hfile, hf⟩

theorem declared_mem (hp : p.WellFormed) {file : FileId} (hfile : file < p.files.length) {d : Node}
    (hd : d ∈ (p.file file).tree.children) (hdecl : d.isDeclaration = true) :
    ∃ f ∈ p.functions, f.kind.file? = some file ∧ f.node = some d ∧
      CallerKind.ofFunction f.kind = .function := by
  obtain ⟨f, hf⟩ := declaredFunction?_isSome (p := p) (hp.tree _ (file_mem hfile)) hd hdecl file
  obtain ⟨-, hnode, hkind, hcaller⟩ := declaredFunction?_eq_some hf
  have hmem : f ∈ p.declaredIn file :=
    List.mem_filterMap.mpr ⟨d, List.mem_filter.mpr ⟨hd, Node.isNamed_of_isDeclaration hdecl⟩, hf⟩
  exact ⟨f, mem_functions_of_declared hfile hmem, hkind, hnode, hcaller⟩

end Program

/-! ## sites of a graph -/

namespace CallGraph

variable {p : Program} {scope : Scope}

/-- The site of an edge in an item: a call below the item, in a function that is the item's own or
stands in it. -/
structure SiteOf (p : Program) (e : Edge) (site : CallSite) (i : Item) : Prop where
  item : p.ItemOf i
  inFile : site.file = i.file
  call : site.node.kind = .callExpression
  path : ∃ ps, Node.Path i.node (site.node :: ps)
  caller : p.CallerOf e.caller i.isFunction

theorem callerOf_owner (hp : p.WellFormed) {i : Item} (hi : p.ItemOf i) :
    p.CallerOf ((Names.ofProgram p).1.ownerOf i) i.isFunction := by
  unfold Names.ownerOf
  rw [Names.functions_ofProgram, Names.program_ofProgram]
  cases hfun : i.isFunction with
  | true =>
    have hdecl : i.node.isDeclaration = true := hi.isFunction ▸ hfun
    obtain ⟨f, hf, hfile, hnode, hkind⟩ := Program.declared_mem hp hi.file hi.child hdecl
    obtain ⟨id, hid⟩ := List.getElem?_of_mem hf
    have hat := Program.functionAt?_eq hp hid hfile hnode
    rw [if_pos rfl, hat]
    exact Program.callerOf_functionAt hp hf hfile hnode hat (by simp [hkind])
  | false =>
    have hpackage := hp.package _ (Program.file_mem hi.file)
    exact Program.callerOf (Program.functions_init hpackage) nofun nofun
      ⟨nofun, nofun⟩

theorem literal_mem {i : Item} (hi : i ∈ p.items) {l : Node} (hl : l ∈ i.node.backward)
    (hk : l.kind = .funcLiteral) :
    (⟨.literal (p.file i.file).package i.file i.isFunction, some l⟩ : FunctionNode) ∈
      p.functions := by
  unfold Program.functions
  refine List.mem_append_right _ (List.mem_flatMap.mpr ⟨i, hi, List.mem_map.mpr ⟨l, ?_, rfl⟩⟩)
  exact List.mem_filter.mpr ⟨hl, decide_eq_true hk⟩

/-- A literal in an item calls from inside a declaration if the item is one. -/
theorem callerOf_literal (hp : p.WellFormed) {i : Item} (hi : i ∈ p.items) {l : Node}
    (hl : l ∈ i.node.backward) (hlk : l.kind = .funcLiteral) {id : FunctionId}
    (hid : functionAt? p.functions i.file l.start = some id) : p.CallerOf id i.isFunction := by
  refine Program.callerOf_functionAt hp (literal_mem hi hl hlk) rfl rfl hid ?_
  cases i.isFunction <;> simp [CallerKind.ofFunction]

theorem edges_build : (build p scope).edges = ⟨rootFunction, testFunction, none⟩
    :: (List.range p.packages.length).map (fun id => ⟨rootFunction, initFunction id, none⟩)
    ++ (Names.ofProgram p).1.functions.zipIdx.flatMap (fun (f, id) => scope.wiring p id f)
    ++ (Names.ofProgram p).2.flatMap (fun (item, bs) => (Names.ofProgram p).1.edgesOf item bs) :=
  rfl

theorem functions_build : (build p scope).functions = p.functions :=
  (rfl : _ = (Names.ofProgram p).1.functions).trans (Names.functions_ofProgram p)

theorem wiring_site {id : FunctionId} {f : FunctionNode} {e : Edge} (he : e ∈ scope.wiring p id f) :
    e.site = none := by
  unfold Scope.wiring at he
  split at he
  · simp only [List.mem_append] at he
    rcases he with (he | he) | he <;>
    · split at he
      · rw [List.mem_singleton.mp he]
      · cases he
  · cases he

theorem callerOf_edgesOf (hp : p.WellFormed) {i : Item} {bs : Bindings} {e : Edge}
    (hi : i ∈ p.items)
    (he : e ∈ (Names.ofProgram p).1.edgesOf i bs) : p.CallerOf e.caller i.isFunction := by
  rcases Names.edgesFrom_caller he with hcaller | ⟨l, hl, hlk, hat⟩
  · rw [hcaller]
    exact callerOf_owner hp (Program.itemOf_mem hi)
  · rw [Names.functions_ofProgram] at hat
    exact callerOf_literal hp hi hl hlk hat

theorem siteOf_edge (hp : p.WellFormed) {e : Edge} {site : CallSite}
    (he : e ∈ (build p scope).edges) (hsite : e.site = some site) : ∃ i, SiteOf p e site i := by
  rw [edges_build, List.cons_append, List.cons_append, List.mem_cons, List.mem_append,
    List.mem_append] at he
  rcases he with rfl | (he | he) | he
  · cases hsite
  · obtain ⟨_, -, rfl⟩ := List.mem_map.mp he
    cases hsite
  · obtain ⟨_, -, he⟩ := List.mem_flatMap.mp he
    rw [wiring_site he] at hsite
    cases hsite
  · obtain ⟨⟨i, bs⟩, hi, he⟩ := List.mem_flatMap.mp he
    have hi : i ∈ p.items := by
      rw [← Names.items_ofProgram]
      exact List.mem_map_of_mem hi
    obtain ⟨hfile, hcall, hpath⟩ := Names.edgesFrom_site he hsite
    exact ⟨i, Program.itemOf_mem hi, hfile, hcall, hpath, callerOf_edgesOf hp hi he⟩

end CallGraph

end ParamThreading
