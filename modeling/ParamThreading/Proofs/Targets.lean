import ParamThreading.Proofs.AlreadyThreaded
import ParamThreading.Proofs.EditPlaces

/-!
# The targets of a request

An edit looks at what was inserted at its place before. Since every target has a place of its own,
it finds nothing there, and what a request inserts can be told for each target from the program
alone.

* `Target`  a list with the insertion that is meant for it;
* `Program.targets`  the targets of a frontier;
* `Frontier.Proper.targets_apart`  no two of them have the same place;
* `Frontier.Proper.apply_eq`  what is inserted;
* `plan_proper`  the frontiers of requests are of this sort.
-/

namespace ParamThreading

/-- A list that a request touches: the insertion that is meant for it, and whether what that inserts
is in place already. -/
structure Target where
  file : FileId
  list : Node
  insertion : Insertion
  inPlace : Bool

namespace Target

def Apart (t t' : Target) : Prop := t.file = t'.file → t.insertion.offset ≠ t'.insertion.offset

def isDue (skip : Bool) (t : Target) : Bool := !(skip && t.inPlace)

def entry (t : Target) : FileId × Insertion := (t.file, t.insertion)

/-- The insertion is made unless what it inserts is in place and need not be repeated. -/
def put (skip : Bool) (t : Target) (e : Edits) : Outcome × Edits :=
  if skip && t.inPlace then (.alreadyPresent, e) else (.applied, e.push t.file t.insertion)

/-- The insertion goes to a place of the list. -/
structure Sits (p : Program) (t : Target) : Prop where
  node : p.HasNode t.file t.list
  isList : t.list.kind.isList = true
  place : t.list.HasPlace t.insertion.offset

theorem Sits.apart {p : Program} {t t' : Target} (hp : p.WellFormed) (h : t.Sits p) (h' : t'.Sits p)
    (hne : t.file = t'.file → t.list ≠ t'.list) : t.Apart t' := by
  intro hfile hoffset
  have hnode' : p.HasNode t.file t'.list := by
    rw [hfile]
    exact h'.node
  have hplace' : t'.list.HasPlace t.insertion.offset := by
    rw [hoffset]
    exact h'.place
  exact hne hfile (h.node.eq_of_place hp hnode' h.isList h'.isList h.place hplace')

end Target

/-! ## edits at places of their own -/

namespace Edits

variable {e : Edits} {p : Program} {file : FileId} {offset : Nat} {name type : String} {skip : Bool}

theorem offset_le_trans (i j k : Insertion) (hij : decide (i.offset ≤ j.offset) = true)
    (hjk : decide (j.offset ≤ k.offset) = true) : decide (i.offset ≤ k.offset) = true := by
  simp only [decide_eq_true_eq] at hij hjk ⊢
  omega

theorem offset_le_total (i j : Insertion) :
    (decide (i.offset ≤ j.offset) || decide (j.offset ≤ i.offset)) = true := by
  simp only [Bool.or_eq_true, decide_eq_true_eq]
  omega

theorem ordered_perm (is : List Insertion) : (ordered is).Perm is :=
  (List.mergeSort_perm _ _).trans is.reverse_perm

theorem pairwise_ordered (is : List Insertion) :
    (ordered is).Pairwise fun i j => i.offset ≤ j.offset :=
  (List.pairwise_mergeSort offset_le_trans offset_le_total _).imp of_decide_eq_true

theorem leading?_eq_none :
    e.leading? file offset = none ↔ ∀ x ∈ e.entries, x.1 = file → x.2.offset ≠ offset := by
  simp only [leading?, Option.map_eq_none_iff, List.find?_eq_none, List.mem_reverse, insertions,
    List.mem_map, List.mem_filter, beq_iff_eq]
  constructor
  · intro h x hx hfile
    exact h x.2 ⟨x, ⟨hx, hfile⟩, rfl⟩
  · rintro h _ ⟨x, ⟨hx, hfile⟩, rfl⟩
    exact h x hx hfile

end Edits

def Program.parameterTarget (p : Program) (name type : String) (file : FileId) (list : Node) :
    Target where
  file := file
  list := list
  insertion :=
    ⟨list.start + 1, .parameter name type, elementText (p.file file) (name ++ " " ++ type)
    list list.codeChildren.head? list.codeChildren.isEmpty⟩
  inPlace :=
    Edits.empty.hasParameter (p.file file).text file (list.start + 1) list.codeChildren name type

def Program.argumentText (p : Program) (name : String) (file : FileId) (call list : Node) :
    String :=
  match ((call.child? .function).bind (p.methodExpressionType? file)).isSome, list.codeChildren with
  | true, _ :: _ => ", " ++ name
  | _, given => elementText (p.file file) name list given.head? given.isEmpty

def Program.argumentTarget (p : Program) (name : String) (file : FileId) (call list : Node) :
    Target where
  file := file
  list := list
  insertion :=
    ⟨(p.argumentPlace file call list).1, .argument name, p.argumentText name file call list⟩
  inPlace := Edits.empty.hasArgument (p.file file).text file (p.argumentPlace file call list).1
    (p.argumentPlace file call list).2 name

namespace Edits

variable {e : Edits} {p : Program} {file : FileId} {name type : String} {skip : Bool}
    {call list : Node}

theorem putParameter_eq_put (h : e.leading? file (list.start + 1) = none) :
    e.putParameter p file list name type skip =
      (p.parameterTarget name type file list).put skip e := by
  have hin : e.hasParameter (p.file file).text file (list.start + 1) list.codeChildren name type =
      Edits.empty.hasParameter (p.file file).text file (list.start + 1) list.codeChildren
        name type := by
    unfold hasParameter
    rw [h]
    rfl
  simp only [putParameter, Target.put, Program.parameterTarget, hin, h, Option.isNone_none,
    Bool.and_true]
  rfl

theorem putArgument_eq_put (h : e.leading? file (p.argumentPlace file call list).1 = none) :
    e.putArgument p file call list name skip =
      (p.argumentTarget name file call list).put skip e := by
  have hin : ∀ offset given, e.leading? file offset = none →
      e.hasArgument (p.file file).text file offset given name =
        Edits.empty.hasArgument (p.file file).text file offset given name := by
    intro offset given hnone
    unfold hasArgument
    rw [hnone]
    rfl
  unfold Program.argumentPlace at h
  unfold putArgument Target.put Program.argumentTarget Program.argumentPlace Program.argumentText
  cases hbehind : ((call.child? .function).bind (p.methodExpressionType? file)).isSome with
  | false =>
    rw [hbehind] at h
    simp [hin _ _ h, h]
  | true =>
    rw [hbehind] at h
    cases hgiven : list.codeChildren with
    | nil =>
      rw [hgiven] at h
      simp [hin _ _ h, h]
    | cons receiver rest =>
      rw [hgiven] at h
      simp [hin _ _ h]

end Edits

/-- The target of an edit is reached wherever nothing was inserted at its place. -/
def Reaches (edit : Edits → Except Failure (Outcome × Edits)) (skip : Bool) (t : Target) : Prop :=
  ∀ e, e.leading? t.file t.insertion.offset = none → edit e = .ok (t.put skip e)

/-- Edits with places of their own make the insertions that are due, and pass nothing over. -/
theorem Applied.foldl_targets {α : Type} {edit : α → Edits → Except Failure (Outcome × Edits)}
    {skip : Bool} {target : α → Option Target} {xs : List α}
    (hxs : ∀ x ∈ xs, ∃ t, target x = some t ∧ Reaches (edit x) skip t)
    (happart : (xs.filterMap target).Pairwise Target.Apart) (acc : Applied)
    (hacc : ∀ t ∈ xs.filterMap target, acc.edits.leading? t.file t.insertion.offset = none) :
    xs.foldl (fun acc x => acc.take (edit x acc.edits)) acc =
      ⟨⟨acc.edits.entries ++ ((xs.filterMap target).filter (Target.isDue skip)).map Target.entry⟩,
        acc.skipped⟩ := by
  induction xs generalizing acc with
  | nil => simp
  | cons x xs ih =>
    obtain ⟨t, ht, hreach⟩ := hxs x List.mem_cons_self
    rw [List.filterMap_cons_some ht] at happart hacc ⊢
    obtain ⟨hfirst, hrest⟩ := List.pairwise_cons.mp happart
    obtain ⟨hnone, hnones⟩ := List.forall_mem_cons.mp hacc
    have hxs' := fun y hy => hxs y (List.mem_cons_of_mem x hy)
    rw [List.foldl_cons, hreach acc.edits hnone]
    unfold Target.put
    by_cases hskip : (skip && t.inPlace) = true
    · have hdue : t.isDue skip = false := by simp [Target.isDue, hskip]
      rw [if_pos hskip, List.filter_cons_of_neg (by simp [hdue])]
      exact ih hxs' hrest acc hnones
    · have hdue : t.isDue skip = true := by simp [Target.isDue, hskip]
      rw [if_neg hskip, List.filter_cons_of_pos hdue, List.map_cons]
      -- the targets that are left have other places than this one
      have hnew : ∀ t' ∈ xs.filterMap target,
          (acc.edits.push t.file t.insertion).leading? t'.file t'.insertion.offset = none := by
        intro t' ht'
        rw [Edits.leading?_eq_none]
        intro y hy hfile
        rcases List.mem_append.mp hy with hy | hy
        · exact Edits.leading?_eq_none.mp (hnones t' ht') y hy hfile
        · rw [List.mem_singleton.mp hy] at hfile ⊢
          exact hfirst t' ht' hfile
      rw [Applied.take, ih hxs' hrest _ hnew]
      simp [Edits.push, Target.entry]

/-! ## the targets of a frontier -/

namespace Program

def signatureTarget? (p : Program) (request : Request) (a : Address) : Option Target :=
  a.node?.map (p.parameterTarget request.name request.type a.file)

def callTarget? (p : Program) (request : Request) (a : Address) : Option Target :=
  a.node?.bind fun call => (call.child? .arguments).map (p.argumentTarget request.name a.file call)

def targets (p : Program) (frontier : Frontier) (request : Request) : List Target :=
  frontier.signatures.filterMap (p.signatureTarget? request) ++
    frontier.callSites.filterMap (p.callTarget? request)

variable {p : Program} (request : Request) {a : Address}

theorem Declares.hasNode {d : Declaration} {params : Node} (hd : p.Declares d)
    (hparams : DeclarationShape d.node params) : p.HasNode d.file params := by
  have hmem : params ∈ d.node.children := List.mem_of_find?_eq_some hparams.parameters
  refine ⟨hd.file, ⟨d.node, hd.child, ?_⟩, by rw [hparams.list]; rfl⟩
  exact Node.mem_everything.mpr (.inr ⟨params, hmem, params.self_mem_everything⟩)

theorem signatureTarget?_eq {d : Declaration} (hd : p.Declares d) (ha : Signs p d a) :
    ∃ params, d.node.child? .parameters = some params ∧ params.kind = .parameterList ∧
      p.signatureTarget? request a =
        some (p.parameterTarget request.name request.type d.file params) ∧
      (p.parameterTarget request.name request.type d.file params).Sits p ∧
      a.key = ⟨d.file, params.start⟩ ∧
      Reaches (fun e => e.addParameter p a request.name request.type request.skipIfPresent)
        request.skipIfPresent (p.parameterTarget request.name request.type d.file params) := by
  obtain ⟨params, hshape, rfl⟩ := ha
  refine ⟨params, hshape.parameters, hshape.list, rfl,
    ⟨hd.hasNode hshape, by show params.kind.isList = true; rw [hshape.list]; rfl, .inl rfl⟩, rfl,
      ?_⟩
  intro e he
  have hkind : (Address.ofNode d.file params [d.node, (p.file d.file).tree]).expectKind p
      .parameterList = .ok params := by
    rw [Address.expectKind]
    exact if_pos hshape.list
  exact bind_eq_ok.mpr ⟨params, hkind, congrArg Except.ok (Edits.putParameter_eq_put he)⟩

theorem hasNode_of_siteOf (hp : p.WellFormed) {edge : Edge} {site : CallSite} {i : Item}
    {list : Node}
    (hi : CallGraph.SiteOf p edge site i) (hlist : site.node.child? .arguments = some list) :
    p.HasNode site.file list ∧ list.kind = .argumentList := by
  obtain ⟨ps, hpath⟩ := hi.path
  obtain ⟨⟨f, list', hshape⟩, -⟩ := hi.item.resolveRange_call hp hpath hi.call
  cases hlist.symm.trans hshape.child_arguments
  have hmem : list ∈ site.node.children := List.mem_of_find?_eq_some hlist
  have hbelow : list ∈ i.node.everything := Node.everything_trans
    (Node.mem_everything.mpr (.inr ⟨list, hmem, list.self_mem_everything⟩))
    (hpath.mem_everything _ List.mem_cons_self)
  refine ⟨⟨?_, ⟨i.node, ?_, hbelow⟩, by rw [hshape.list]; rfl⟩, hshape.list⟩
  · rw [hi.inFile]; exact hi.item.file
  · rw [hi.inFile]; exact hi.item.child

theorem HasNode.filled {file : FileId} {list x : Node} (hp : p.WellFormed) (h : p.HasNode file list)
    (hk : list.kind = .argumentList) (hx : x ∈ list.codeChildren) : x.start < x.stop := by
  have hmem : x ∈ list.children := (List.mem_filter.mp hx).1
  have hsolid := (Grammar.opened_begins (h.made hp).self (by rw [hk]; rfl)).2 x hmem
  exact ((h.neat hp).child hmem).self.filled hsolid

theorem hasPlace_argument {file : FileId} {call list : Node} (hp : p.WellFormed)
    (h : p.HasNode file list) (hk : list.kind = .argumentList) :
    list.HasPlace (p.argumentPlace file call list).1 := by
  unfold argumentPlace
  cases ((call.child? .function).bind (p.methodExpressionType? file)).isSome with
  | false => exact .inl rfl
  | true =>
    cases hgiven : list.codeChildren with
    | nil => exact .inl rfl
    | cons receiver rest =>
      have hmem : receiver ∈ list.codeChildren := by
        rw [hgiven]
        exact List.mem_cons_self
      exact .inr ⟨receiver, hmem, h.filled hp hk hmem, rfl⟩

theorem callTarget?_eq {site : CallSite} {list : Node} (hp : p.WellFormed) (ha : AddressOf site a)
    (hlist : site.node.child? .arguments = some list) (hnode : p.HasNode site.file list)
    (hk : list.kind = .argumentList) :
    p.callTarget? request a = some (p.argumentTarget request.name site.file site.node list) ∧
      (p.argumentTarget request.name site.file site.node list).Sits p ∧
      Reaches (fun e => e.addArgument p a request.name request.skipIfPresent) request.skipIfPresent
        (p.argumentTarget request.name site.file site.node list) := by
  refine ⟨?_, ⟨hnode, by show list.kind.isList = true; rw [hk]; rfl, hasPlace_argument hp hnode hk⟩,
    ?_⟩
  · rw [callTarget?, ha.node, Option.bind_some, hlist, ha.file]
    rfl
  · intro e he
    have hkind : a.expectKind p .callExpression = .ok site.node := by
      rw [Address.expectKind, ha.node]
      exact if_pos ha.call
    refine bind_eq_ok.mpr ⟨site.node, hkind, ?_⟩
    rw [hlist, ha.file]
    exact congrArg Except.ok (Edits.putArgument_eq_put he)

end Program

/-! ## what a request inserts -/

/-- The targets of a frontier are parameter lists of declarations and calls of the program, each of
them once. -/
structure Frontier.Proper (f : Frontier) (p : Program) : Prop where
  signatures : ∀ a ∈ f.signatures, ∃ d, p.Declares d ∧ Signs p d a
  callSites : ∀ a ∈ f.callSites, ∃ site list, AddressOf site a ∧
    site.node.child? .arguments = some list ∧ p.HasNode site.file list ∧ list.kind = .argumentList
  signaturesOnce : f.signatureKeys.Nodup
  callsOnce : f.callKeys.Nodup

section
variable {p : Program} {frontier : Frontier} (request : Request)

theorem Frontier.Proper.signatures_apart (hp : p.WellFormed) (h : frontier.Proper p) :
    (frontier.signatures.filterMap (p.signatureTarget? request)).Pairwise Target.Apart := by
  rw [List.pairwise_filterMap]
  have hkeys : frontier.signatures.Pairwise fun a b => a.key ≠ b.key :=
    List.pairwise_map.mp h.signaturesOnce
  refine hkeys.imp_of_mem fun {a b} ha hb hne t ht t' ht' => ?_
  obtain ⟨d, hd, hsigns⟩ := h.signatures a ha
  obtain ⟨d', hd', hsigns'⟩ := h.signatures b hb
  obtain ⟨params, -, -, heq, hsits, hkey, -⟩ := Program.signatureTarget?_eq request hd hsigns
  obtain ⟨params', -, -, heq', hsits', hkey', -⟩ :=
    Program.signatureTarget?_eq request hd' hsigns'
  cases heq.symm.trans ht
  cases heq'.symm.trans ht'
  refine hsits.apart hp hsits' fun hfile hlist => hne ?_
  have hstart : params.start = params'.start := congrArg Node.start hlist
  rw [hkey, hkey', hstart, show d.file = d'.file from hfile]

theorem Frontier.Proper.callSites_apart (hp : p.WellFormed) (h : frontier.Proper p) :
    (frontier.callSites.filterMap (p.callTarget? request)).Pairwise Target.Apart := by
  rw [List.pairwise_filterMap]
  have hkeys : frontier.callSites.Pairwise fun a b => a.callKey ≠ b.callKey :=
    List.pairwise_map.mp h.callsOnce
  refine hkeys.imp_of_mem fun {a b} ha hb hne t ht t' ht' => ?_
  obtain ⟨site, list, haddress, hlist, hnode, hk⟩ := h.callSites a ha
  obtain ⟨site', list', haddress', hlist', hnode', hk'⟩ := h.callSites b hb
  obtain ⟨heq, hsits, -⟩ := Program.callTarget?_eq request hp haddress hlist hnode hk
  obtain ⟨heq', hsits', -⟩ := Program.callTarget?_eq request hp haddress' hlist' hnode' hk'
  cases heq.symm.trans ht
  cases heq'.symm.trans ht'
  refine hsits.apart hp hsits' fun hfile hsame => hne ?_
  have hstart : list.start = list'.start := congrArg Node.start hsame
  rw [haddress.callKey hlist, haddress'.callKey hlist', hstart,
    show site.file = site'.file from hfile]

/-- No two targets of a frontier have the same place. -/
theorem Frontier.Proper.targets_apart (hp : p.WellFormed) (h : frontier.Proper p) :
    (p.targets frontier request).Pairwise Target.Apart := by
  refine List.pairwise_append.mpr ⟨h.signatures_apart request hp, h.callSites_apart request hp,
    fun t ht t' ht' => ?_⟩
  obtain ⟨a, ha, heq⟩ := List.mem_filterMap.mp ht
  obtain ⟨b, hb, heq'⟩ := List.mem_filterMap.mp ht'
  obtain ⟨d, hd, hsigns⟩ := h.signatures a ha
  obtain ⟨site, list, haddress, hlist, hnode, hk⟩ := h.callSites b hb
  obtain ⟨params, -, hkind, ht, hsits, -⟩ := Program.signatureTarget?_eq request hd hsigns
  obtain ⟨ht', hsits', -⟩ := Program.callTarget?_eq request hp haddress hlist hnode hk
  cases ht.symm.trans heq
  cases ht'.symm.trans heq'
  refine hsits.apart hp hsits' fun _ hsame => ?_
  -- one is a list of parameters and the other one of arguments
  have hkinds : Kind.parameterList = .argumentList := by
    rw [← hkind, ← hk]
    exact congrArg Node.kind hsame
  cases hkinds

/-- A request makes the insertions that are due, in the order of the targets, and passes nothing
over. -/
theorem Frontier.Proper.apply_eq (hp : p.WellFormed) (h : frontier.Proper p) :
    apply p frontier request = ⟨⟨((p.targets frontier request).filter
      (Target.isDue request.skipIfPresent)).map Target.entry⟩, []⟩ := by
  have hsignatures : ∀ a ∈ frontier.signatures, ∃ t, p.signatureTarget? request a = some t ∧
      Reaches (fun e => e.addParameter p a request.name request.type request.skipIfPresent)
        request.skipIfPresent t := by
    intro a ha
    obtain ⟨d, hd, hsigns⟩ := h.signatures a ha
    obtain ⟨params, -, -, heq, -, -, hreaches⟩ := Program.signatureTarget?_eq request hd hsigns
    exact ⟨_, heq, hreaches⟩
  have hcalls : ∀ a ∈ frontier.callSites, ∃ t, p.callTarget? request a = some t ∧
      Reaches (fun e => e.addArgument p a request.name request.skipIfPresent)
        request.skipIfPresent t := by
    intro a ha
    obtain ⟨site, list, haddress, hlist, hnode, hk⟩ := h.callSites a ha
    obtain ⟨heq, -, hreaches⟩ := Program.callTarget?_eq request hp haddress hlist hnode hk
    exact ⟨_, heq, hreaches⟩
  obtain ⟨happart, happart', hcross⟩ := List.pairwise_append.mp (h.targets_apart request hp)
  have hfirst := Applied.foldl_targets hsignatures happart ⟨.empty, []⟩ fun t _ => rfl
  unfold apply
  simp only
  rw [hfirst, Applied.foldl_targets hcalls happart']
  · simp [Program.targets, Edits.empty]
  · -- the parameters stand at other places than the calls
    intro t' ht'
    rw [Edits.leading?_eq_none]
    intro x hx hfile
    obtain ⟨t, ht, rfl⟩ := List.mem_map.mp hx
    exact hcross t (List.mem_filter.mp ht).1 t' ht' hfile

end

/-- A request from a position in a declaration has a proper frontier, which holds what has to
change. -/
theorem plan_proper {program : Program} {onDisk : Path → Option Path} {request : Request}
    {d : Declaration} (hloaded : program.Loaded)
    (hroots : (Scope.ofProgram program).hasRoots = true)
    (hd : program.Selects onDisk request.position d) :
    ∃ frontier, plan program onDisk request = .ok frontier ∧ frontier.Proper program ∧
      frontier.Holds program (.build program (Scope.ofProgram program)) d := by
  have hp := hloaded.wellFormed
  obtain ⟨s, hsigns, hplan⟩ := plan_eq hp hroots hd
  have hgrows :=
    (@propagate_threads program (Scope.ofProgram program) d s hp hd.declares hsigns).1.grows
  have hholds := @propagate_holds program (Scope.ofProgram program) d s hp hd.declares hsigns
  refine ⟨_, hplan,
    ⟨fun a ha => ?_, fun a ha => ?_, hgrows.signatures.nodup (List.nodup_singleton _),
    hgrows.callSites.nodup List.nodup_nil⟩, hholds⟩
  · obtain ⟨d', hd', ha⟩ := hholds.signatures a ha
    exact ⟨d', hd'.declares hd.declares, ha⟩
  · obtain ⟨d', caller, site, list, -, hcalls, hlist, haddress⟩ := hholds.site hp ha
    obtain ⟨callee, hedge, -⟩ := hcalls.edge
    obtain ⟨i, hi⟩ := CallGraph.siteOf_edge hp hedge rfl
    exact ⟨site, list, haddress, hlist, Program.hasNode_of_siteOf hp hi hlist⟩

end ParamThreading
