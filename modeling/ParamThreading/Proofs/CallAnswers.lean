import ParamThreading.Proofs.CallSites
import ParamThreading.Proofs.Reachability
import ParamThreading.Proofs.Resolution

/-!
# Who calls a declaration

The question is asked at the parameter list of the declaration, and the answer holds the calls of
the graph, each at its own address.

* `Declaration`, `Program.Declares`  declarations of functions and methods;
* `Signs`  the address of the parameter list of a declaration;
* `CallGraph.resolveRange_site`  the address of a call site;
* `CallGraph.incoming_eq`  the calls that are answered.
-/

namespace ParamThreading

/-! ## declarations -/

structure Declaration where
  file : FileId
  node : Node

structure Program.Declares (p : Program) (d : Declaration) : Prop where
  file : d.file < p.files.length
  child : d.node ∈ (p.file d.file).tree.children
  isDeclaration : d.node.isDeclaration = true

def Signs (p : Program) (d : Declaration) (a : Address) : Prop :=
  ∃ params, DeclarationShape d.node params ∧
    a = .ofNode d.file params [d.node, (p.file d.file).tree]

namespace Program.Declares

variable {p : Program} {d d' : Declaration} {m : Node}

theorem tree (hd : p.Declares d) (hp : p.WellFormed) :
    SourceTree (p.file d.file).text (p.file d.file).tree :=
  hp.tree _ (file_mem hd.file)

theorem exists_signs (hd : p.Declares d) (hp : p.WellFormed) : ∃ a, Signs p d a := by
  obtain ⟨params, hshape, -⟩ := (hd.tree hp).declaration _ hd.child hd.isDeclaration
  exact ⟨_, params, hshape, rfl⟩

/-- The text of a declaration is covered by nothing else at the top of its file. -/
theorem eq_of_covers (hd : p.Declares d) (hp : p.WellFormed) {n : Node}
    (hn : n ∈ (p.file d.file).tree.children) (hnamed : n.kind.isNamed = true) {o : Nat}
    (ho : d.node.start ≤ o ∧ o < d.node.stop) (ho' : n.start ≤ o ∧ o < n.stop) : d.node = n := by
  by_contra hne
  rcases Node.before_or_before (hd.tree hp).ordered hd.child hn hne with hb | hb
  · have := hb.2.2 hnamed
    omega
  · have := hb.2.2 (Node.isNamed_of_isDeclaration hd.isDeclaration)
    omega

end Program.Declares

namespace Signs

variable {p : Program} {d d' : Declaration} {a b : Address}

theorem file (h : Signs p d a) : a.file = d.file := by
  obtain ⟨params, -, rfl⟩ := h
  rfl

theorem unique (h : Signs p d a) (h' : Signs p d b) : a = b := by
  obtain ⟨params, hshape, rfl⟩ := h
  obtain ⟨params', hshape', rfl⟩ := h'
  cases hshape.parameters.symm.trans hshape'.parameters
  rfl

theorem key (h : Signs p d a) :
    ∃ params, d.node.child? .parameters = some params ∧ a.key = ⟨d.file, params.start⟩ := by
  obtain ⟨params, hshape, rfl⟩ := h
  exact ⟨params, hshape.parameters, rfl⟩

theorem covers (hp : p.WellFormed) (hd : p.Declares d) (h : Signs p d a) :
    d.node.start ≤ a.start ∧ a.start < d.node.stop := by
  obtain ⟨params, hshape, rfl⟩ := h
  have hmem : params ∈ d.node.children := List.mem_of_find?_eq_some hshape.parameters
  have hneat := (hd.tree hp).neat _ hd.child
  obtain ⟨h₁, h₂⟩ := hneat.self.within params hmem
  have h₃ := (hneat.child hmem).self.filled (by rw [hshape.list]; rfl)
  exact ⟨h₁, by simp only [Address.ofNode]; omega⟩

theorem eq_of_key (hp : p.WellFormed) (hd : p.Declares d) (hd' : p.Declares d') (h : Signs p d a)
    (h' : Signs p d' b) (hkey : a.key = b.key) : d = d' := by
  have ho := h.covers hp hd
  have ho' := h'.covers hp hd'
  have hfile : d.file = d'.file := by
    rw [← h.file, ← h'.file]
    exact congrArg Key.file hkey
  have hstart : a.start = b.start := congrArg Key.offset hkey
  rw [← hstart] at ho'
  have hnode := hd.eq_of_covers hp (by rw [hfile]; exact hd'.child)
    (Node.isNamed_of_isDeclaration hd'.isDeclaration) ho ho'
  cases d
  cases d'
  cases hfile
  cases hnode
  rfl

end Signs

/-! ## sites -/

theorem Program.ItemOf.resolveRange_call {p : Program} (hp : p.WellFormed) {i : Item}
    (hi : p.ItemOf i) {call : Node} {ps : List Node} (hpath : Node.Path i.node (call :: ps))
    (hcall : call.kind = .callExpression) :
    (∃ f args, CallShape call f args) ∧ call.start < call.stop ∧
      resolveRange p i.file call.start call.stop true =
        .ok ⟨i.file, call.start, call.stop, call :: (ps ++ [(p.file i.file).tree]), true⟩ := by
  have htree := hp.tree _ (file_mem hi.file)
  have hroot := hpath.trans (.child .root hi.child hi.named)
  rw [List.cons_append] at hroot
  obtain ⟨hshape, hlt, hstop, henclosing⟩ := htree.enclosing_call hroot (by simp) hcall
  refine ⟨hshape, hlt, ?_⟩
  unfold resolveRange
  have hrange : ¬(call.start > call.stop ∨ call.stop > (p.file i.file).text.utf8ByteSize) := by
    omega
  simp [henclosing, hrange]

structure AddressOf (site : CallSite) (a : Address) : Prop where
  file : a.file = site.file
  node : a.node? = some site.node
  call : site.node.kind = .callExpression

theorem AddressOf.callKey {site : CallSite} {a : Address} (h : AddressOf site a) {args : Node}
    (hargs : site.node.child? .arguments = some args) : a.callKey = ⟨site.file, args.start⟩ := by
  simp [Address.callKey, h.node, h.file, Option.filter, h.call, hargs]

/-- The address of a site, from which a call in a declaration leads to the parameter list of that.
-/
theorem CallGraph.resolveRange_site {p : Program} (hp : p.WellFormed) {e : Edge} {site : CallSite}
    {i : Item} (h : SiteOf p e site i) :
    site.node.start < site.node.stop ∧ (∃ f args, CallShape site.node f args) ∧
    ∃ a, resolveRange p site.file site.node.start site.node.stop true = .ok a ∧ AddressOf site a ∧
      (i.isFunction = true → ∃ s, a.signature? = some s ∧ Signs p ⟨site.file, i.node⟩ s) := by
  obtain ⟨ps, hpath⟩ := h.path
  obtain ⟨hshape, hlt, hresolve⟩ := h.item.resolveRange_call hp hpath h.call
  rw [h.inFile]
  refine ⟨hlt, hshape, _, hresolve, ⟨h.inFile.symm, rfl, h.call⟩, fun hfun => ?_⟩
  have htree := hp.tree _ (Program.file_mem h.item.file)
  have hdecl : i.node.isDeclaration = true := h.item.isFunction ▸ hfun
  obtain ⟨params, hsignature, -⟩ := htree.declaration _ h.item.child hdecl
  obtain ⟨inner, hinner, hnone⟩ := htree.path_declaration h.item.child hdecl hpath
  exact ⟨_, signature?_declaration hinner hnone hsignature, params, hsignature, rfl⟩

theorem CallGraph.SiteOf.enclosing_arguments {p : Program} (hp : p.WellFormed) {e : Edge}
    {site : CallSite} {i : Item} (h : SiteOf p e site i) {args : Node}
    (hargs : site.node.child? .arguments = some args) :
    ∃ ps, (p.file site.file).tree.enclosing args.start (args.start + 1) =
      args :: site.node :: ps := by
  have htree := hp.tree _ (Program.file_mem h.item.file)
  obtain ⟨ps, hpath⟩ := h.path
  obtain ⟨⟨f, args', hshape⟩, -⟩ := h.item.resolveRange_call hp hpath h.call
  cases hargs.symm.trans hshape.child_arguments
  have hmem : args ∈ site.node.children := List.mem_of_find?_eq_some hargs
  have hnamed : args.kind.isNamed = true := by rw [hshape.list]; rfl
  have hroot := (hpath.trans (.child .root h.item.child h.item.named)).child hmem hnamed
  obtain ⟨hneat, hmade, -⟩ := (htree.path hroot).2.2 (by simp)
  have hlt : args.start < args.stop := hneat.self.filled (by rw [hshape.list]; rfl)
  rw [h.inFile, htree.enclosing_path hroot (Nat.lt_succ_self _) fun _ => ⟨Nat.le_refl _, hlt⟩]
  -- the parenthesis belongs to the list itself
  have hnone :
      args.children.find? (fun c => c.kind.isNamed && c.encloses args.start (args.start + 1)) =
      none := by
    rw [List.find?_eq_none]
    intro c hc hcover
    obtain ⟨hcnamed, hcover⟩ := Bool.and_eq_true_iff.mp hcover
    have hstart := (Node.encloses_iff.mp hcover).1
    have := Node.start_lt_of_opened hneat hmade.self (by rw [hshape.list]; rfl)
      (List.mem_filter.mpr ⟨hc, hcnamed⟩) (Node.self_mem_everything c)
    omega
  rw [Node.enclosing_eq, hnone]
  exact ⟨_, rfl⟩

theorem CallGraph.SiteOf.eq_of_arguments {p : Program} (hp : p.WellFormed) {e e' : Edge}
    {site site' : CallSite} {i i' : Item} {args args' : Node} (h : SiteOf p e site i)
    (h' : SiteOf p e' site' i') (hargs : site.node.child? .arguments = some args)
    (hargs' : site'.node.child? .arguments = some args') (hfile : site.file = site'.file)
    (hstart : args.start = args'.start) : site = site' := by
  obtain ⟨ps, he⟩ := h.enclosing_arguments hp hargs
  obtain ⟨ps', he'⟩ := h'.enclosing_arguments hp hargs'
  rw [hfile, hstart, he'] at he
  obtain ⟨file, node⟩ := site
  obtain ⟨file', node'⟩ := site'
  cases hfile
  cases he
  rfl

/-! ## answers -/

namespace CallGraph

variable {p : Program} {scope : Scope} {d : Declaration} {a : Address}

def IsFunctionOf (g : CallGraph) (id : FunctionId) (d : Declaration) : Prop :=
  ∃ f, g.functions[id]? = some f ∧ f.kind.file? = some d.file ∧ f.node = some d.node

/-- A caller that is reached from the start of the program calls a declaration at a site. -/
structure Calls (g : CallGraph) (caller : FunctionId) (site : CallSite) (d : Declaration) :
    Prop where
  reached : Relation.ReflTransGen (Leads g.edges) rootFunction caller
  edge : ∃ callee, (⟨caller, callee, some site⟩ : Edge) ∈ g.edges ∧ g.IsFunctionOf callee d

theorem functionAround_signs (hp : p.WellFormed) (hd : p.Declares d) (ha : Signs p d a) :
    ∃ id, (build p scope).functionAround p a = .ok id ∧ (build p scope).IsFunctionOf id d ∧
      ∀ id', (build p scope).IsFunctionOf id' d → id' = id := by
  obtain ⟨params, hshape, rfl⟩ := ha
  obtain ⟨f, hf, hfile, hnode, -⟩ := Program.declared_mem hp hd.file hd.child hd.isDeclaration
  obtain ⟨id, hid⟩ := List.getElem?_of_mem hf
  have hat := Program.functionAt?_eq hp hid hfile hnode
  have hparams : params.isFunction = false := by
    rw [Node.isFunction_eq, hshape.list]; rfl
  have hfun : d.node.isFunction = true := by simp [Node.isFunction, hd.isDeclaration]
  refine ⟨id, ?_, ⟨f, by rw [functions_build]; exact hid, hfile, hnode⟩, ?_⟩
  · simp [functionAround, Address.ofNode, hparams, hfun, functionFor?,
      functions_build, hat]
  · rintro id' ⟨f', hid', hfile', hnode'⟩
    rw [functions_build] at hid'
    exact Option.some.inj ((Program.functionAt?_eq hp hid' hfile' hnode').symm.trans hat)

theorem mem_callersOf (hp : p.WellFormed) {id caller : FunctionId} {site : CallSite} :
    (caller, site) ∈ (build p scope).callersOf id ↔
      Relation.ReflTransGen (Leads (build p scope).edges) rootFunction caller ∧
        (⟨caller, id, some site⟩ : Edge) ∈ (build p scope).edges := by
  unfold callersOf
  rw [List.mem_filterMap]
  constructor
  · rintro ⟨e, he, h⟩
    split at h
    case isTrue hcond =>
      simp only [Bool.and_eq_true, beq_iff_eq, Bool.not_eq_true'] at hcond
      obtain ⟨⟨rfl, hreach⟩, -⟩ := hcond
      obtain ⟨s, hs, h⟩ := Option.map_eq_some_iff.mp h
      cases h
      rw [← hs]
      exact ⟨isReachable_build.mp hreach, he⟩
    case isFalse => cases h
  · rintro ⟨hreach, he⟩
    obtain ⟨i, hsite⟩ := siteOf_edge hp he rfl
    refine ⟨_, he, ?_⟩
    rw [if_pos]
    · rfl
    · simp [isReachable_build.mpr hreach, hsite.caller.synthetic]

/-- A call as it is answered. -/
structure Answers (g : CallGraph) (p : Program) (site : CallSite) (e : CallEdge) : Prop where
  site : resolveRange p site.file site.node.start site.node.stop true = .ok e.site
  callerKind : e.callerKind = .ofFunction (g.kind e.caller)

theorem callEdge_eq_ok {g : CallGraph} {callee caller : FunctionId} {site : CallSite} {e : CallEdge}
    (h : g.callEdge p callee (caller, site) = .ok e) : e.caller = caller ∧ g.Answers p site e := by
  obtain ⟨address, hsite, h⟩ := bind_eq_ok.mp h
  cases h
  exact ⟨rfl, hsite, rfl⟩

/-- At the parameter list of a declaration its calls are answered. -/
theorem incoming_eq (hp : p.WellFormed) (hd : p.Declares d) (ha : Signs p d a) :
    ∃ answer, (build p scope).incoming p a = .ok answer ∧
      (∀ e ∈ answer, ∃ site, (build p scope).Calls e.caller site d ∧
        (build p scope).Answers p site e) ∧
      (∀ caller site, (build p scope).Calls caller site d →
        ∃ e ∈ answer, e.caller = caller ∧ (build p scope).Answers p site e) := by
  obtain ⟨id, haround, hid, hunique⟩ := @functionAround_signs p scope d a hp hd ha
  have hresolve : ∀ call ∈ (build p scope).callersOf id,
      ∃ e, (build p scope).callEdge p id call = .ok e := by
    rintro ⟨caller, site⟩ hcall
    obtain ⟨i, hi⟩ := siteOf_edge hp ((mem_callersOf hp).mp hcall).2 rfl
    obtain ⟨-, -, address, haddress, -⟩ := resolveRange_site hp hi
    exact ⟨_, bind_eq_ok.mpr ⟨address, haddress, rfl⟩⟩
  obtain ⟨edges, hedges⟩ := exists_mapM hresolve
  refine ⟨_, bind_eq_ok.mpr ⟨id, haround, bind_eq_ok.mpr ⟨edges, hedges, rfl⟩⟩, ?_, ?_⟩
  · intro e he
    obtain ⟨⟨caller, site⟩, hcall, he⟩ := (mem_mapM hedges).mp (List.mem_mergeSort.mp he)
    obtain ⟨rfl, hanswers⟩ := callEdge_eq_ok he
    obtain ⟨hreach, hedge⟩ := (mem_callersOf hp).mp hcall
    exact ⟨site, ⟨hreach, id, hedge, hid⟩, hanswers⟩
  · rintro caller site ⟨hreach, callee, hedge, hcallee⟩
    cases hunique callee hcallee
    have hcall := (mem_callersOf hp).mpr ⟨hreach, hedge⟩
    obtain ⟨e, he⟩ := hresolve _ hcall
    exact ⟨e, List.mem_mergeSort.mpr ((mem_mapM hedges).mpr ⟨_, hcall, he⟩), callEdge_eq_ok he⟩

theorem Calls.address (hp : p.WellFormed) {caller : FunctionId} {site : CallSite}
    (hcalls : (build p scope).Calls caller site d) :
    ∃ a args, resolveRange p site.file site.node.start site.node.stop true = .ok a ∧
      site.node.child? .arguments = some args ∧ AddressOf site a := by
  obtain ⟨callee, hedge, -⟩ := hcalls.edge
  obtain ⟨i, hi⟩ := siteOf_edge hp hedge rfl
  obtain ⟨-, ⟨f, args, hshape⟩, a, ha, haddress, -⟩ := resolveRange_site hp hi
  exact ⟨a, args, ha, hshape.child_arguments, haddress⟩

theorem Calls.eq_of_arguments (hp : p.WellFormed) {caller caller' : FunctionId}
    {site site' : CallSite}
    {d' : Declaration} {args args' : Node} (h : (build p scope).Calls caller site d)
    (h' : (build p scope).Calls caller' site' d') (hargs : site.node.child? .arguments = some args)
    (hargs' : site'.node.child? .arguments = some args') (hfile : site.file = site'.file)
    (hstart : args.start = args'.start) : site = site' := by
  obtain ⟨callee, hedge, -⟩ := h.edge
  obtain ⟨i, hi⟩ := siteOf_edge hp hedge rfl
  obtain ⟨callee', hedge', -⟩ := h'.edge
  obtain ⟨i', hi'⟩ := siteOf_edge hp hedge' rfl
  exact hi.eq_of_arguments hp hi' hargs hargs' hfile hstart

end CallGraph

end ParamThreading
