import Mathlib.Data.List.Nodup
import ParamThreading.Proofs.GraphEdges

/-!
# The calls of a program and the functions they run in

An edge with a call site stands for a call and one of the functions that it can reach, and every
such pair has one edge; every literal is led to once without a call, by the function around it.

* `Program.HoldsCode`  the declarations whose calls count;
* `Program.around`  the function that a part of a declaration runs in;
* `CallGraph.build_resolves`  the edges with a site, and those that lead to literals.
-/

namespace ParamThreading

open Rule Grammar

/-! ## declarations with code -/

namespace Program

variable {p : Program}

/-- A declaration of a function, a method, variables or constants at the top of a file. -/
structure HoldsCode (p : Program) (file : FileId) (d : Node) : Prop where
  loaded : file < p.files.length
  child : d ∈ (p.file file).tree.children
  kind : d.kind = .functionDeclaration ∨ d.kind = .methodDeclaration ∨ d.kind = .varDeclaration ∨
    d.kind = .constDeclaration

theorem HoldsCode.named {file : FileId} {d : Node} (h : p.HoldsCode file d) :
    d.kind.isNamed = true := by
  rcases h.kind with hk | hk | hk | hk <;> rw [hk] <;> rfl

theorem mem_items_iff (hp : p.WellFormed) {file : FileId} {d : Node} :
    (⟨file, d, d.isDeclaration⟩ : Item) ∈ p.items ↔ p.HoldsCode file d := by
  unfold items
  simp only [List.mem_flatMap, List.mem_range, List.mem_filterMap]
  constructor
  · rintro ⟨file', hfile, n, hn, hitem⟩
    obtain ⟨rfl, rfl, -⟩ := item?_eq_some hitem
    refine ⟨hfile, (List.mem_filter.mp hn).1, ?_⟩
    unfold item? at hitem
    dsimp only at hitem ⊢
    split at hitem
    case h_1 hk => exact .inl hk
    case h_2 hk => exact .inr (.inl hk)
    case h_3 hk => exact .inr (.inr (.inl hk))
    case h_4 hk => exact .inr (.inr (.inr hk))
    case h_5 => cases hitem
  · intro h
    refine ⟨file, h.loaded, d, List.mem_filter.mpr ⟨h.child, h.named⟩, ?_⟩
    have htree := hp.tree _ (file_mem h.loaded)
    unfold item?
    rcases h.kind with hk | hk | hk | hk
    · have hdecl : d.isDeclaration = true := by rw [Node.isDeclaration_eq, hk]; rfl
      obtain ⟨f, hf⟩ := declaredFunction?_isSome (p := p) htree h.child hdecl file
      simp [hk, hf, hdecl]
    · have hdecl : d.isDeclaration = true := by rw [Node.isDeclaration_eq, hk]; rfl
      obtain ⟨f, hf⟩ := declaredFunction?_isSome (p := p) htree h.child hdecl file
      simp [hk, hf, hdecl]
    · simp [hk, Node.isDeclaration]
    · simp [hk, Node.isDeclaration]

def Scans (p : Program) (file : FileId) (d : Node) (bs : Bindings) : Prop :=
  (⟨file, d, d.isDeclaration⟩, bs) ∈ (Names.ofProgram p).2

theorem scans_of_mem {i : Item} {bs : Bindings} (h : (i, bs) ∈ (Names.ofProgram p).2) :
    p.Scans i.file i.node bs := by
  have hi := itemOf_mem (mem_items_of_scanned h)
  unfold Scans
  rw [← hi.isFunction]
  exact h

theorem Scans.holdsCode (hp : p.WellFormed) {file : FileId} {d : Node} {bs : Bindings}
    (h : p.Scans file d bs) : p.HoldsCode file d :=
  (mem_items_iff hp).mp (mem_items_of_scanned h)

theorem HoldsCode.scans (hp : p.WellFormed) {file : FileId} {d : Node} (h : p.HoldsCode file d) :
    ∃! bs, p.Scans file d bs := by
  have hmem := (mem_items_iff hp).mpr h
  rw [← Names.items_ofProgram] at hmem
  obtain ⟨⟨i, bs⟩, hbs, rfl⟩ := List.mem_map.mp hmem
  refine ⟨bs, hbs, fun bs' hbs' => ?_⟩
  by_contra hne
  have hordered := items_ordered hp
  rw [← Names.items_ofProgram] at hordered
  have hsymm : Std.Symm fun x y : Item × Bindings => x.1.file = y.1.file →
      Before x.1.node y.1.node ∨ Before y.1.node x.1.node := ⟨fun x y h e => (h e.symm).symm⟩
  have hpairs : (Names.ofProgram p).2.Pairwise fun x y => x.1.file = y.1.file →
      Before x.1.node y.1.node ∨ Before y.1.node x.1.node :=
    (List.pairwise_map.mp hordered).imp fun h e => .inl (h e)
  have hapart := hpairs.forall hbs' hbs fun e => hne (congrArg Prod.snd e)
  have hlt := (hp.tree _ (file_mem h.loaded)).filled d h.child
  rcases hapart rfl with hbefore | hbefore <;>
  · have := hbefore.2.2 h.named
    dsimp only at this
    omega

/-! ## the function around -/

/-- The function that the code right below some nodes of a declaration runs in: the innermost
literal among them, or else the declared function, or else the initialisation of the package. -/
def around (p : Program) (file : FileId) (d : Node) (above : List Node) : Option FunctionNode :=
  match above.find? (·.kind = .funcLiteral) with
  | some literal => some ⟨.literal (p.file file).package file d.isDeclaration, some literal⟩
  | none =>
    if d.isDeclaration then p.declaredFunction? file d
    else some ⟨.packageInit (p.file file).package, none⟩

theorem around_literal {file : FileId} {d n : Node} {above : List Node}
    (h : n.kind = .funcLiteral) : p.around file d (n :: above) =
      some ⟨.literal (p.file file).package file d.isDeclaration, some n⟩ := by
  simp [around, h]

theorem around_other {file : FileId} {d n : Node} {above : List Node} (h : n.kind ≠ .funcLiteral) :
    p.around file d (n :: above) = p.around file d above := by
  simp [around, h]

theorem eq_of_functions (hp : p.WellFormed) {id id' : FunctionId} {f : FunctionNode} {file : FileId}
    {n : Node} (h : p.functions[id]? = some f) (h' : p.functions[id']? = some f)
    (hfile : f.kind.file? = some file) (hn : f.node = some n) : id = id' := by
  have h₁ := functionAt?_eq hp h hfile hn
  have h₂ := functionAt?_eq hp h' hfile hn
  exact Option.some.inj (h₁.symm.trans h₂)

theorem eq_initFunction {id : FunctionId} {package : PackageId}
    (h : p.functions[id]? = some ⟨.packageInit package, none⟩) : id = initFunction package := by
  rw [functions_eq] at h
  rcases id with _ | _ | id
  · cases h
  · cases h
  · rw [List.getElem?_cons_succ, List.getElem?_cons_succ, List.append_assoc, List.getElem?_append]
      at h
    split at h
    case isTrue hlt =>
      rw [List.length_map, List.length_range] at hlt
      rw [List.getElem?_map, List.getElem?_range hlt] at h
      cases h
      exact Nat.add_comm _ 2
    case isFalse =>
      -- the functions behind those of the packages have nodes
      have hmem := List.mem_of_getElem? h
      rcases List.mem_append.mp hmem with hmem | hmem
      · obtain ⟨file, -, hmem⟩ := List.mem_flatMap.mp hmem
        obtain ⟨n, -, -, hnode, -⟩ := mem_declaredIn hmem
        cases hnode
      · obtain ⟨i, -, hmem⟩ := List.mem_flatMap.mp hmem
        obtain ⟨n, -, -, hnode⟩ := mem_literalsIn hmem
        cases hnode

end Program

namespace Node

theorem Path.mem_backward {n m : Node} {ps : List Node} (h : Path n ps) (hm : m ∈ ps) :
    m ∈ n.backward := by
  induction n using induct generalizing ps with
  | step n ih =>
    rw [backward_eq]
    rcases h.cases_child with rfl | ⟨c, hc, qs, hqs, rfl⟩
    · rw [List.mem_singleton.mp hm]
      exact List.mem_cons_self
    · rcases List.mem_append.mp hm with hm | hm
      · have hin := ih c (List.mem_filter.mp hc).1 hqs hm
        exact List.mem_cons_of_mem _ (List.mem_flatMap.mpr ⟨c, List.mem_reverse.mpr hc, hin⟩)
      · rw [List.mem_singleton.mp hm]
        exact List.mem_cons_self

theorem Path.unique {n x : Node} {ps qs : List Node} (h : n.All Neat) (hx : x.kind.isSolid = true)
    (hps : Path n (x :: ps)) (hqs : Path n (x :: qs)) : ps = qs := by
  by_contra hne
  have hsymm : Std.Symm fun ps qs : List Node =>
      ∀ x, x.kind.isSolid = true → ps.head? = some x → qs.head? ≠ some x :=
    ⟨fun ps qs h x hx hqs hps => h x hx hps hqs⟩
  have hmem : ∀ {rs}, Path n rs → rs ∈ n.ways [] := fun h =>
    mem_ways.mpr ⟨_, h, (List.append_nil _).symm⟩
  have hapart := (ways_apart h []).forall (hmem hps) (hmem hqs) fun e => hne (List.cons.inj e).2
  exact hapart x hx rfl rfl

end Node

namespace CallGraph

variable {p : Program} {scope : Scope}

/-- The function is the one that the code below some nodes of a declaration runs in. -/
def RunsIn (g : CallGraph) (p : Program) (file : FileId) (d : Node) (above : List Node)
    (id : FunctionId) : Prop :=
  ∃ f, p.around file d above = some f ∧ g.functions[id]? = some f

theorem functionAt?_literal (hp : p.WellFormed) {i : Item} (hi : i ∈ p.items) {l : Node}
    (hl : l ∈ i.node.backward) (hk : l.kind = .funcLiteral) :
    ∃ id, functionAt? p.functions i.file l.start = some id ∧ p.functions[id]? =
      some ⟨.literal (p.file i.file).package i.file i.node.isDeclaration, some l⟩ := by
  obtain ⟨id, hid⟩ := List.getElem?_of_mem (literal_mem hi hl hk)
  rw [(Program.itemOf_mem hi).isFunction] at hid
  exact ⟨id, Program.functionAt?_eq hp hid rfl rfl, hid⟩

theorem ownerOf_eq (hp : p.WellFormed) {i : Item} (hi : i ∈ p.items) :
    ∃ f, (if i.node.isDeclaration then p.declaredFunction? i.file i.node
        else some ⟨.packageInit (p.file i.file).package, none⟩) = some f ∧
      p.functions[(Names.ofProgram p).1.ownerOf i]? = some f := by
  have hitem := Program.itemOf_mem hi
  unfold Names.ownerOf
  rw [Names.functions_ofProgram, Names.program_ofProgram, hitem.isFunction]
  by_cases hdecl : i.node.isDeclaration = true
  · have htree := hp.tree _ (Program.file_mem hitem.file)
    obtain ⟨f, hf⟩ := Program.declaredFunction?_isSome (p := p) htree hitem.child hdecl i.file
    obtain ⟨-, hnode, hfile, -⟩ := Program.declaredFunction?_eq_some hf
    have hmem : f ∈ p.functions := Program.mem_functions_of_declared hitem.file
      (List.mem_filterMap.mpr ⟨i.node, List.mem_filter.mpr ⟨hitem.child, hitem.named⟩, hf⟩)
    obtain ⟨id, hid⟩ := List.getElem?_of_mem hmem
    refine ⟨f, by rw [if_pos hdecl, hf], ?_⟩
    rw [if_pos hdecl, Program.functionAt?_eq hp hid hfile hnode]
    exact hid
  · refine ⟨_, if_neg hdecl, ?_⟩
    rw [if_neg hdecl]
    exact Program.functions_init (hp.package _ (Program.file_mem hitem.file))

theorem RunsIn.unique (hp : p.WellFormed) {file : FileId} {d : Node} {above : List Node}
    {id id' : FunctionId} (h : (build p scope).RunsIn p file d above id)
    (h' : (build p scope).RunsIn p file d above id') : id = id' := by
  obtain ⟨f, hf, hid⟩ := h
  obtain ⟨f', hf', hid'⟩ := h'
  cases hf.symm.trans hf'
  rw [functions_build] at hid hid'
  unfold Program.around at hf
  split at hf
  · cases hf
    exact Program.eq_of_functions hp hid hid' rfl rfl
  · split at hf
    · obtain ⟨-, hnode, hfile, -⟩ := Program.declaredFunction?_eq_some hf
      exact Program.eq_of_functions hp hid hid' hfile hnode
    · cases hf
      rw [Program.eq_initFunction hid, Program.eq_initFunction hid']

/-- The function that the traversal has in hand below some nodes is the one that the code runs in.
-/
theorem runsIn_around (hp : p.WellFormed) {i : Item} (hi : i ∈ p.items) {above : List Node}
    (habove : ∀ l ∈ above, l ∈ i.node.backward) : (build p scope).RunsIn p i.file i.node above
      ((Names.ofProgram p).1.around i.file ((Names.ofProgram p).1.ownerOf i) above) := by
  unfold RunsIn
  rw [functions_build]
  induction above with
  | nil =>
    obtain ⟨f, hf, hid⟩ := ownerOf_eq hp hi
    exact ⟨f, hf, hid⟩
  | cons n above ih =>
    by_cases hk : n.kind = .funcLiteral
    · obtain ⟨id, hat, hid⟩ := functionAt?_literal hp hi (habove n List.mem_cons_self) hk
      refine ⟨⟨.literal (p.file i.file).package i.file i.node.isDeclaration, some n⟩, ?_, ?_⟩
      · exact Program.around_literal hk
      · rw [Names.around_literal hk, Names.functions_ofProgram, hat]
        exact hid
    · obtain ⟨f, hf, hid⟩ := ih fun l hl => habove l (List.mem_cons_of_mem n hl)
      refine ⟨f, ?_, ?_⟩
      · rw [Program.around_other hk]
        exact hf
      · rw [Names.around_other hk]
        exact hid

theorem runsIn_iff (hp : p.WellFormed) {i : Item} (hi : i ∈ p.items) {n : Node} {above : List Node}
    (hpath : Node.Path i.node (n :: above)) {id : FunctionId} :
    (build p scope).RunsIn p i.file i.node above id ↔
      id = (Names.ofProgram p).1.around i.file ((Names.ofProgram p).1.ownerOf i) above := by
  have hrun := @runsIn_around p scope hp i hi above
    fun l hl => hpath.mem_backward (List.mem_cons_of_mem n hl)
  refine ⟨fun h => h.unique hp hrun, ?_⟩
  rintro rfl
  exact hrun

/-! ## callees -/

end CallGraph

namespace Names

variable {names : Names} {file : FileId} {bs : Bindings}

theorem methodsNamed_nodup (name : String) : (names.methodsNamed name).Nodup :=
  List.nodup_range.filter _

theorem selectorCallees_nodup (selector : Node) :
    (names.selectorCallees file bs selector).Nodup := by
  have hmethod : ∀ (o : Option FunctionId) name,
      ((o.map ([·])).getD (names.methodsNamed name)).Nodup := by
    intro o name
    cases o with
    | none => exact methodsNamed_nodup name
    | some f => exact List.nodup_singleton f
  unfold selectorCallees
  dsimp only
  split
  · split
    · exact hmethod _ _
    · split
      · split
        · split
          · exact Option.toList_nodup _
          · exact List.nodup_nil
          · exact methodsNamed_nodup _
        · split
          · exact hmethod _ _
          · exact List.nodup_nil
          · exact methodsNamed_nodup _
        · exact List.nodup_nil
        · exact methodsNamed_nodup _
      · split
        · exact List.nodup_nil
        · exact methodsNamed_nodup _
  · exact List.nodup_nil

theorem callees_nodup (call : Node) : (names.callees file bs call).Nodup := by
  unfold callees
  dsimp only
  split
  · exact List.nodup_nil
  · split
    · split
      · exact List.nodup_singleton _
      · exact List.nodup_nil
      · exact Option.toList_nodup _
    · exact selectorCallees_nodup _
    · exact Option.toList_nodup _
    · exact List.nodup_nil

end Names

/-! ## the edges of a spot -/

namespace Spot

variable {names : Names} {x : Spot} {e : Edge}

theorem edges_sited {site : CallSite} (he : e ∈ x.edges names) (hsite : e.site = some site) :
    site.file = x.item.file ∧ site.node.kind = .callExpression ∧ ∃ above,
      x.way = site.node :: above ∧ e.callee ∈ names.callees x.item.file x.bindings site.node ∧
      e.caller = names.around x.item.file (names.ownerOf x.item) above := by
  unfold edges at he
  cases hway : x.way with
  | nil => rw [hway] at he; cases he
  | cons n above =>
    rw [hway] at he
    by_cases hcall : n.kind = .callExpression
    · rw [Names.edgesAt_call hcall] at he
      obtain ⟨callee, hcallee, rfl⟩ := List.mem_map.mp he
      cases hsite
      exact ⟨rfl, hcall, above, rfl, hcallee, rfl⟩
    · by_cases hliteral : n.kind = .funcLiteral
      · rw [Names.edgesAt_literal hliteral] at he
        obtain ⟨_, -, rfl⟩ := List.mem_map.mp he
        cases hsite
      · rw [Names.edgesAt_eq_nil hcall hliteral] at he
        cases he

theorem edges_contained (he : e ∈ x.edges names) (hsite : e.site = none) : ∃ l above,
    x.way = l :: above ∧ l.kind = .funcLiteral ∧
      functionAt? names.functions x.item.file l.start = some e.callee ∧
      x.edges names =
        [⟨names.around x.item.file (names.ownerOf x.item) above, e.callee, none⟩] := by
  unfold edges at he ⊢
  cases hway : x.way with
  | nil => rw [hway] at he; cases he
  | cons n above =>
    rw [hway] at he
    by_cases hcall : n.kind = .callExpression
    · rw [Names.edgesAt_call hcall] at he
      obtain ⟨_, -, rfl⟩ := List.mem_map.mp he
      cases hsite
    · by_cases hliteral : n.kind = .funcLiteral
      · rw [Names.edgesAt_literal hliteral] at he ⊢
        obtain ⟨f, hf, rfl⟩ := List.mem_map.mp he
        have hat := Option.mem_toList.mp hf
        refine ⟨n, above, rfl, hliteral, hat, ?_⟩
        rw [Option.mem_def.mp hat]
        rfl
      · rw [Names.edgesAt_eq_nil hcall hliteral] at he
        cases he

theorem edges_nodup (names : Names) (x : Spot) :
    ((x.edges names).filter (·.site.isSome)).Nodup := by
  unfold edges
  cases x.way with
  | nil => exact List.nodup_nil
  | cons n above =>
    by_cases hcall : n.kind = .callExpression
    · rw [Names.edgesAt_call hcall]
      refine List.Nodup.filter _ (List.Nodup.map ?_ (Names.callees_nodup n))
      intro f g hfg
      exact (Edge.mk.inj hfg).2.1
    · by_cases hliteral : n.kind = .funcLiteral
      · rw [Names.edgesAt_literal hliteral, List.filter_eq_nil_iff.mpr]
        · exact List.nodup_nil
        · intro e he
          obtain ⟨_, -, rfl⟩ := List.mem_map.mp he
          exact Bool.false_ne_true
      · rw [Names.edgesAt_eq_nil hcall hliteral]
        exact List.nodup_nil

end Spot

namespace CallGraph

variable {p : Program} {scope : Scope}

theorem sited_nodup (hp : p.WellFormed) :
    ((build p scope).edges.filter (·.site.isSome)).Nodup := by
  rw [filter_edges hp fun _ _ _ => rfl, List.filter_flatMap, List.nodup_flatMap]
  refine ⟨fun x _ => Spot.edges_nodup _ x, (Program.spots_apart hp).imp ?_⟩
  intro x y hapart e hx hy
  obtain ⟨hx, hsome⟩ := List.mem_filter.mp hx
  obtain ⟨hy, -⟩ := List.mem_filter.mp hy
  obtain ⟨site, hsite⟩ := Option.isSome_iff_exists.mp hsome
  obtain ⟨hfile, hcall, above, hway, -⟩ := Spot.edges_sited hx hsite
  obtain ⟨hfile', -, above', hway', -⟩ := Spot.edges_sited hy hsite
  refine hapart (hfile.symm.trans hfile') site.node (by rw [hcall]; rfl) ?_ ?_
  · rw [hway]; rfl
  · rw [hway']; rfl

/-- The edges with a site: a call, one of its callees, and the function that the call runs in. -/
theorem mem_sited (hp : p.WellFormed) {caller callee : FunctionId} {site : CallSite} :
    (⟨caller, callee, some site⟩ : Edge) ∈ (build p scope).edges ↔
      ∃ d bs above, p.Scans site.file d bs ∧ Node.Path d (site.node :: above) ∧
        site.node.kind = .callExpression ∧
        callee ∈ (Names.ofProgram p).1.callees site.file bs site.node ∧
        (build p scope).RunsIn p site.file d above caller := by
  have hedges : (⟨caller, callee, some site⟩ : Edge) ∈ (build p scope).edges ↔
      (⟨caller, callee, some site⟩ : Edge) ∈ (build p scope).edges.filter (·.site.isSome) := by
    simp
  rw [hedges, filter_edges hp fun _ _ _ => rfl, List.mem_filter, List.mem_flatMap]
  constructor
  · rintro ⟨⟨x, hx, he⟩, -⟩
    obtain ⟨hscan, hpath⟩ := Program.mem_spots.mp hx
    obtain ⟨hfile, hcall, above, hway, hcallee, hcaller⟩ := Spot.edges_sited he rfl
    rw [hway] at hpath
    have hi := Program.mem_items_of_scanned hscan
    rw [hfile]
    exact ⟨x.item.node, x.bindings, above, Program.scans_of_mem hscan, hpath, hcall, hcallee,
      (runsIn_iff hp hi hpath).mpr hcaller⟩
  · rintro ⟨d, bs, above, hscan, hpath, hcall, hcallee, hruns⟩
    have hi := Program.mem_items_of_scanned hscan
    refine ⟨⟨⟨_, bs, site.node :: above⟩, Program.mem_spots.mpr ⟨hscan, hpath⟩, ?_⟩, rfl⟩
    unfold Spot.edges
    rw [Names.edgesAt_call hcall]
    refine List.mem_map.mpr ⟨callee, hcallee, ?_⟩
    rw [(runsIn_iff hp hi hpath).mp hruns]

end CallGraph

namespace CallGraph

variable {p : Program} {scope : Scope}

/-- A literal is led to once without a call, by the function around it. -/
theorem filter_contained (hp : p.WellFormed) {file : FileId} {d l : Node} {above : List Node}
    (hd : p.HoldsCode file d) (hpath : Node.Path d (l :: above)) (hl : l.kind = .funcLiteral) :
    ∃ literal owner, (build p scope).functions[literal]? =
        some ⟨.literal (p.file file).package file d.isDeclaration, some l⟩ ∧
      (build p scope).RunsIn p file d above owner ∧
      (build p scope).edges.filter (fun e => e.callee == literal && e.site.isNone) =
        [⟨owner, literal, none⟩] := by
  obtain ⟨bs, hscan, -⟩ := hd.scans hp
  have hi := Program.mem_items_of_scanned hscan
  obtain ⟨literal, hat, hliteral⟩ :=
    functionAt?_literal hp hi (hpath.mem_backward List.mem_cons_self) hl
  have hruns := @runsIn_around p scope hp _ hi above
    fun l' hl' => hpath.mem_backward (List.mem_cons_of_mem l hl')
  refine ⟨literal, _, by rw [functions_build]; exact hliteral, hruns, ?_⟩
  have hkeep : (Names.ofProgram p).1.Keeps fun e => e.callee == literal && e.site.isNone := by
    intro caller callee hkind
    by_cases hcallee : callee = literal
    · rw [hcallee, Names.functions_ofProgram, hliteral] at hkind
      cases hkind
    · simp [hcallee]
  rw [filter_edges hp hkeep]
  have hedge : ∀ x ∈ p.spots, ∀ e ∈ x.edges (Names.ofProgram p).1,
      (e.callee == literal && e.site.isNone) = true →
        x.item.file = file ∧ x.way.head? = some l ∧ ∃ caller,
          x.edges (Names.ofProgram p).1 = [⟨caller, literal, none⟩] := by
    intro x hx e he hq
    obtain ⟨hcallee, hnone⟩ := Bool.and_eq_true_iff.mp hq
    obtain ⟨l', above', hway, hl', hat', hedges⟩ :=
      Spot.edges_contained he (Option.isNone_iff_eq_none.mp hnone)
    obtain ⟨hscan', hpath'⟩ := Program.mem_spots.mp hx
    rw [hway] at hpath'
    obtain ⟨id, hid, hfunction⟩ := functionAt?_literal hp (Program.mem_items_of_scanned hscan')
      (hpath'.mem_backward List.mem_cons_self) hl'
    rw [beq_iff_eq.mp hcallee] at hat' hedges
    rw [Names.functions_ofProgram, hid] at hat'
    cases hat'
    have heq := hliteral.symm.trans hfunction
    simp only [Option.some.injEq, FunctionNode.mk.injEq, FunctionKind.literal.injEq] at heq
    obtain ⟨⟨-, hfile, -⟩, hnode⟩ := heq
    exact ⟨hfile.symm, by rw [hway, hnode]; rfl, _, hedges⟩
  have hmem : (⟨(Names.ofProgram p).1.around file ((Names.ofProgram p).1.ownerOf
      ⟨file, d, d.isDeclaration⟩) above, literal, none⟩ : Edge) ∈
        p.spots.flatMap (Spot.edges (Names.ofProgram p).1) := by
    refine List.mem_flatMap.mpr ⟨⟨_, bs, l :: above⟩, Program.mem_spots.mpr ⟨hscan, hpath⟩, ?_⟩
    unfold Spot.edges
    rw [Names.edgesAt_literal hl, Names.functions_ofProgram, hat]
    exact List.mem_singleton_self _
  refine filter_eq_singleton (List.pairwise_flatMap.mpr ⟨fun x hx => ?_, ?_⟩) hmem (by simp)
  · by_cases hany : ∃ e ∈ x.edges (Names.ofProgram p).1,
        (e.callee == literal && e.site.isNone) = true
    · obtain ⟨e, he, hq⟩ := hany
      obtain ⟨-, -, caller, hedges⟩ := hedge x hx e he hq
      rw [hedges]
      exact List.pairwise_singleton ..
    · exact List.pairwise_of_forall_mem_list fun e he _ _ hq => absurd ⟨e, he, hq⟩ hany
  · refine (Program.spots_apart hp).imp_of_mem fun {x y} hx hy hapart e he e' he' hq => ?_
    rw [← Bool.not_eq_true]
    intro hq'
    obtain ⟨hfile, hhead, -⟩ := hedge x hx e he hq
    obtain ⟨hfile', hhead', -⟩ := hedge y hy e' he' hq'
    exact hapart (hfile.trans hfile'.symm) l (by rw [hl]; rfl) hhead hhead'

/-- The edges of a graph with a site are the resolved calls of a program, and its literals are led
to from where they stand. -/
structure Resolves (g : CallGraph) (p : Program) : Prop where
  /-- No edge with a site comes twice. -/
  once : (g.edges.filter (·.site.isSome)).Nodup
  /-- The edges with a site: the function that a call runs in, one of its callees, and the call. -/
  sited : ∀ caller callee site, (⟨caller, callee, some site⟩ : Edge) ∈ g.edges ↔
    ∃ d bs above, p.HoldsCode site.file d ∧ p.Scans site.file d bs ∧
      Node.Path d (site.node :: above) ∧ site.node.kind = .callExpression ∧
      callee ∈ (Names.ofProgram p).1.callees site.file bs site.node ∧
      g.RunsIn p site.file d above caller
  scanned : ∀ file d, p.HoldsCode file d → ∃! bs, p.Scans file d bs
  /-- Every call and every literal has one way up to its declaration. -/
  placed : ∀ file d n, p.HoldsCode file d → n ∈ d.everything →
    n.kind = .callExpression ∨ n.kind = .funcLiteral → ∃! above, Node.Path d (n :: above)
  owned : ∀ file d n above, p.HoldsCode file d → Node.Path d (n :: above) →
    ∃! id, g.RunsIn p file d above id
  /-- A literal is led to once without a call, by the function around it. -/
  contained : ∀ file d l above, p.HoldsCode file d → Node.Path d (l :: above) →
    l.kind = .funcLiteral → ∃ literal owner,
      g.functions[literal]? = some ⟨.literal (p.file file).package file d.isDeclaration, some l⟩ ∧
      g.RunsIn p file d above owner ∧
      g.edges.filter (fun e => e.callee == literal && e.site.isNone) = [⟨owner, literal, none⟩]

/-- The graph of a program has the resolved calls as its edges with a site, each once, and leads to
each literal once without a call. -/
theorem build_resolves (hloaded : p.Loaded) (scope : Scope) : (build p scope).Resolves p := by
  have hp := hloaded.wellFormed
  constructor
  · exact sited_nodup hp
  · intro caller callee site
    rw [mem_sited hp]
    constructor
    · rintro ⟨d, bs, above, hscan, h⟩
      exact ⟨d, bs, above, hscan.holdsCode hp, hscan, h⟩
    · rintro ⟨d, bs, above, -, h⟩
      exact ⟨d, bs, above, h⟩
  · intro file d hd
    exact hd.scans hp
  · intro file d n hd hn hk
    have htree := hp.tree _ (Program.file_mem hd.loaded)
    have hnamed : n.kind.isNamed = true := by rcases hk with hk | hk <;> rw [hk] <;> rfl
    have hsolid : n.kind.isSolid = true := by rcases hk with hk | hk <;> rw [hk] <;> rfl
    obtain ⟨above, hpath⟩ := Node.exists_path (htree.made d hd.child) hn hnamed
    exact ⟨above, hpath, fun above' h => h.unique (htree.neat d hd.child) hsolid hpath⟩
  · intro file d n above hd hpath
    have hi := (Program.mem_items_iff hp).mpr hd
    refine ⟨_, (runsIn_iff hp hi hpath).mpr rfl, fun id hid => (runsIn_iff hp hi hpath).mp hid⟩
  · intro file d l above hd hpath hl
    exact filter_contained hp hd hpath hl

def nestedSources : List (Path × String) :=
  [(⟨"nested.go"⟩, "package p\n\nvar b = func() int \x7b return f(f(1)) \x7d()\n\n" ++
    "func f(n int) int \x7b return n \x7d\n")]

def sites (g : CallGraph) : List (FunctionId × FunctionId × Nat) :=
  g.edges.filterMap fun e => e.site.map fun site => (e.caller, e.callee, site.node.start)

/-- The package is function 2, `f` is function 3 and the literal function 4. -/
theorem build_resolves_nested : ∃ p, Program.ofSources (fun _ => none) nestedSources = .ok p ∧
    (build p (Scope.ofProgram p)).sites = [(2, 4, 19), (4, 3, 39), (4, 3, 41)] ∧
    (build p (Scope.ofProgram p)).Resolves p := by
  have hchecked : (Program.ofSources (fun _ => none) nestedSources).toOption.any (fun p =>
      (build p (Scope.ofProgram p)).sites == [(2, 4, 19), (4, 3, 39), (4, 3, 41)]) = true := by
    decide +kernel
  obtain ⟨p, hp, hchecked⟩ := any_toOption.mp hchecked
  exact ⟨p, hp, beq_iff_eq.mp hchecked, build_resolves (.sources hp) _⟩

end CallGraph

end ParamThreading
