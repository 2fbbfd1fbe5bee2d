import ParamThreading.Proofs.ResolvedCalls
import ParamThreading.Proofs.Targets

/-!
# Whether parameters and arguments stay in step

A request makes one insertion for each of its targets, but for those that it leaves alone because
what is to be inserted stands there. Of a parameter list and of a call that is decided apart: by the
first parameter of the one, and by the argument at the place of a new one in the other. So a call
and what it calls change together just if both of them have the new element or neither does, and
always where nothing is left alone.

* `Declaration.gains`, `CallSite.gains`  what a parameter list and a call get;
* `Edits.ExactFor`  insertions that are those of a frontier;
* `apply_in_step`  the insertions of a request, and when a call and a declaration get equally many;
* `apply_out_of_step`  a call that gets an argument while what it calls gets no parameter.
-/

namespace ParamThreading

def Edits.insertionsAt (e : Edits) (file : FileId) (offset : Nat) : List Insertion :=
  (e.insertions file).filter (·.offset == offset)

def Declaration.gains (d : Declaration) (e : Edits) : List Insertion :=
  ((d.node.child? .parameters).map fun params => e.insertionsAt d.file (params.start + 1)).getD []

def CallSite.gains (site : CallSite) (p : Program) (e : Edits) : List Insertion :=
  ((site.node.child? .arguments).map fun list =>
    e.insertionsAt site.file (p.argumentPlace site.file site.node list).1).getD []

/-- The insertions are a single one of an element, or there are none if the element is present. -/
structure AddsUnless (present : Prop) (element : Inserted) (is : List Insertion) : Prop where
  absent : ¬ present → ∃ offset text, is = [⟨offset, element, text⟩]
  present : present → is = []

/-- Insertions are those of a frontier: one for each target, unless the request leaves alone what is
in place and finds the element there. -/
structure Edits.ExactFor (e : Edits) (p : Program) (f : Frontier) (request : Request) : Prop where
  parameters : ∀ a ∈ f.signatures, ∀ d, Signs p d a →
    AddsUnless (request.skipIfPresent = true ∧ d.HasParameter p request.name request.type)
      (.parameter request.name request.type) (d.gains e)
  arguments : ∀ a ∈ f.callSites, ∀ site, AddressOf site a →
    AddsUnless (request.skipIfPresent = true ∧ site.HasArgument p request.name)
      (.argument request.name) (site.gains p e)
  onlyThese :
    ∀ x ∈ e.entries, (∃ a ∈ f.signatures, ∃ d, Signs p d a ∧ x.1 = d.file ∧ x.2 ∈ d.gains e) ∨
    ∃ a ∈ f.callSites, ∃ site, AddressOf site a ∧ x.1 = site.file ∧ x.2 ∈ site.gains p e

/-! ## what each target gets -/

def Target.meets (t t' : Target) : Bool :=
  t'.file == t.file && t'.insertion.offset == t.insertion.offset

theorem AddressOf.eq {site site' : CallSite} {a : Address} (h : AddressOf site a)
    (h' : AddressOf site' a) : site = site' := by
  obtain ⟨file, node⟩ := site
  obtain ⟨file', node'⟩ := site'
  have hnode : node = node' := Option.some.inj (h.node.symm.trans h'.node)
  have hfile : file = file' := h.file.symm.trans h'.file
  rw [hnode, hfile]

theorem Signs.eq {p : Program} {d d' : Declaration} {a : Address} (h : Signs p d a)
    (h' : Signs p d' a) : d = d' := by
  obtain ⟨params, -, rfl⟩ := h
  obtain ⟨params', -, h'⟩ := h'
  obtain ⟨file, node⟩ := d
  obtain ⟨file', node'⟩ := d'
  have hfile : file = file' := congrArg Address.file h'
  have hpath : [params, node, _] = [params', node', _] := congrArg Address.path h'
  have hnode : node = node' := (List.cons.inj (List.cons.inj hpath).2).1
  rw [hfile, hnode]

section
variable {p : Program} {frontier : Frontier} {request : Request}

/-- What is inserted at the place of a target is its own insertion, if that is due. -/
theorem Frontier.Proper.insertionsAt_target (hp : p.WellFormed) (h : frontier.Proper p) {t : Target}
    (ht : t ∈ p.targets frontier request) :
    (apply p frontier request).edits.insertionsAt t.file t.insertion.offset =
      if t.isDue request.skipIfPresent then [t.insertion] else [] := by
  have honly : (p.targets frontier request).filter t.meets = [t] := by
    refine filter_eq_singleton ((h.targets_apart request hp).imp fun {x y} hxy hx => ?_) ht
      (by simp [Target.meets])
    simp only [Target.meets, Bool.and_eq_true, beq_iff_eq] at hx
    rw [← Bool.not_eq_true]
    simp only [Target.meets, Bool.and_eq_true, beq_iff_eq]
    rintro ⟨hfile, hoffset⟩
    exact hxy (hx.1.trans hfile.symm) (hx.2.trans hoffset.symm)
  have hdue : ((p.targets frontier request).filter (Target.isDue request.skipIfPresent)).filter
      t.meets = [t].filter (Target.isDue request.skipIfPresent) := by
    rw [← honly, List.filter_filter, List.filter_filter]
    simp only [Bool.and_comm]
  calc (apply p frontier request).edits.insertionsAt t.file t.insertion.offset
      = (((p.targets frontier request).filter (Target.isDue request.skipIfPresent)).filter
        t.meets).map
          Target.insertion := by
        rw [h.apply_eq request hp]
        simp only [Edits.insertionsAt, Edits.insertions, List.filter_map, List.map_map,
          List.filter_filter]
        congr 1
        refine List.filter_congr fun x _ => ?_
        simp only [Function.comp_apply, Target.meets, Target.entry, Bool.and_left_comm,
          Bool.and_assoc]
    _ = ([t].filter (Target.isDue request.skipIfPresent)).map Target.insertion := by rw [hdue]
    _ = if t.isDue request.skipIfPresent then [t.insertion] else [] := by
        cases hd : t.isDue request.skipIfPresent <;> simp [hd]

theorem Frontier.Proper.adds_target (hp : p.WellFormed) (h : frontier.Proper p) {t : Target}
    (ht : t ∈ p.targets frontier request) {present : Prop} (hpresent : t.inPlace = true ↔ present) :
    AddsUnless (request.skipIfPresent = true ∧ present) t.insertion.inserted
      ((apply p frontier request).edits.insertionsAt t.file t.insertion.offset) := by
  rw [h.insertionsAt_target hp ht, ← hpresent, ← Bool.and_eq_true, Target.isDue]
  cases request.skipIfPresent && t.inPlace with
  | false => exact ⟨fun _ => ⟨_, _, rfl⟩, fun htrue => by cases htrue⟩
  | true => exact ⟨fun hnot => absurd rfl hnot, fun _ => rfl⟩

theorem Frontier.Proper.adds_parameter (hp : p.WellFormed) (h : frontier.Proper p) {a : Address}
    (ha : a ∈ frontier.signatures) {d : Declaration} (hd : Signs p d a) :
    AddsUnless (request.skipIfPresent = true ∧ d.HasParameter p request.name request.type)
      (.parameter request.name request.type) (d.gains (apply p frontier request).edits) := by
  obtain ⟨d', hdeclares, hd'⟩ := h.signatures a ha
  cases hd.eq hd'
  obtain ⟨params, hparams, -, ht, -⟩ := Program.signatureTarget?_eq request hdeclares hd
  have hmem : p.parameterTarget request.name request.type d.file params ∈
      p.targets frontier request :=
    List.mem_append_left _ (List.mem_filterMap.mpr ⟨a, ha, ht⟩)
  have hin : (p.parameterTarget request.name request.type d.file params).inPlace = true ↔
      d.HasParameter p request.name request.type := by
    rw [← signatureInPlace_empty hd]
    obtain ⟨params', hshape, rfl⟩ := hd
    cases hparams.symm.trans hshape.parameters
    exact Iff.rfl
  have hgains : d.gains (apply p frontier request).edits =
      (apply p frontier request).edits.insertionsAt d.file (params.start + 1) := by
    rw [Declaration.gains, hparams]
    rfl
  rw [hgains]
  exact h.adds_target hp hmem hin

theorem Frontier.Proper.adds_argument (hp : p.WellFormed) (h : frontier.Proper p) {a : Address}
    (ha : a ∈ frontier.callSites) {site : CallSite} (hsite : AddressOf site a) :
    AddsUnless (request.skipIfPresent = true ∧ site.HasArgument p request.name)
      (.argument request.name) (site.gains p (apply p frontier request).edits) := by
  obtain ⟨site', list, hsite', hlist, hnode, hk⟩ := h.callSites a ha
  cases hsite.eq hsite'
  obtain ⟨ht, -, -⟩ := Program.callTarget?_eq request hp hsite hlist hnode hk
  have hmem : p.argumentTarget request.name site.file site.node list ∈ p.targets frontier request :=
    List.mem_append_right _ (List.mem_filterMap.mpr ⟨a, ha, ht⟩)
  have hin : (p.argumentTarget request.name site.file site.node list).inPlace = true ↔
      site.HasArgument p request.name := by
    rw [← callInPlace_empty hsite, callInPlace, hsite.node, Option.any_some, hlist, Option.any_some,
      hsite.file]
    exact Iff.rfl
  have hgains : site.gains p (apply p frontier request).edits =
      (apply p frontier request).edits.insertionsAt site.file
        (p.argumentPlace site.file site.node list).1 := by
    rw [CallSite.gains, hlist]
    rfl
  rw [hgains]
  exact h.adds_target hp hmem hin

theorem Frontier.Proper.exactFor (hp : p.WellFormed) (h : frontier.Proper p) :
    (apply p frontier request).edits.ExactFor p frontier request := by
  refine ⟨fun a ha d hd => h.adds_parameter hp ha hd,
    fun a ha site hsite => h.adds_argument hp ha hsite, fun x hx => ?_⟩
  rw [h.apply_eq request hp] at hx
  obtain ⟨t, ht, rfl⟩ := List.mem_map.mp hx
  obtain ⟨ht, hdue⟩ := List.mem_filter.mp ht
  have hmem :
      t.insertion ∈ (apply p frontier request).edits.insertionsAt t.file t.insertion.offset := by
    rw [h.insertionsAt_target hp ht, if_pos hdue]
    exact List.mem_singleton_self _
  rcases List.mem_append.mp ht with ht | ht
  · obtain ⟨a, ha, heq⟩ := List.mem_filterMap.mp ht
    obtain ⟨d, hdeclares, hd⟩ := h.signatures a ha
    obtain ⟨params, hparams, -, ht, -⟩ := Program.signatureTarget?_eq request hdeclares hd
    cases ht.symm.trans heq
    refine .inl ⟨a, ha, d, hd, rfl, ?_⟩
    rw [Declaration.gains, hparams]
    exact hmem
  · obtain ⟨a, ha, heq⟩ := List.mem_filterMap.mp ht
    obtain ⟨site, list, hsite, hlist, hnode, hk⟩ := h.callSites a ha
    obtain ⟨ht, -, -⟩ := Program.callTarget?_eq request hp hsite hlist hnode hk
    cases ht.symm.trans heq
    refine .inr ⟨a, ha, site, hsite, rfl, ?_⟩
    rw [CallSite.gains, hlist]
    exact hmem

end

theorem AddsUnless.ne_nil_iff {present : Prop} {element : Inserted} {is : List Insertion}
    (h : AddsUnless present element is) : is ≠ [] ↔ ¬ present := by
  constructor
  · exact fun hne hpresent => hne (h.present hpresent)
  · intro habsent
    obtain ⟨_, _, hone⟩ := h.absent habsent
    rw [hone]
    exact List.cons_ne_nil _ _

theorem AddsUnless.length_eq {a b : Prop} {element element' : Inserted} {is is' : List Insertion}
    (h : AddsUnless a element is) (h' : AddsUnless b element' is') (hab : a ↔ b) :
    is.length = is'.length := by
  by_cases ha : a
  · rw [h.present ha, h'.present (hab.mp ha)]
  · obtain ⟨_, _, hone⟩ := h.absent ha
    obtain ⟨_, _, hone'⟩ := h'.absent (fun hb => ha (hab.mpr hb))
    rw [hone, hone', List.length_singleton, List.length_singleton]

/-! ## a call and what it calls -/

/-- A request from a position in a declaration passes no target over and makes its insertions. A
call gets an argument just if a declaration gets a parameter, and then they get one each, unless
what is in place is left alone and one of the two has the new element while the other one does not.
-/
theorem apply_in_step {program : Program} {onDisk : Path → Option Path} {request : Request}
    {d : Declaration} (hloaded : program.Loaded)
    (hroots : (Scope.ofProgram program).hasRoots = true)
    (hd : program.Selects onDisk request.position d) :
    ∃ frontier, plan program onDisk request = .ok frontier ∧
      (apply program frontier request).skipped = [] ∧
      (apply program frontier request).edits.ExactFor program frontier request ∧
      ∀ a ∈ frontier.callSites, ∀ site, AddressOf site a →
        ∀ b ∈ frontier.signatures, ∀ callee, Signs program callee b →
        ((site.gains program (apply program frontier request).edits ≠ [] ↔
            callee.gains (apply program frontier request).edits ≠ []) ↔
          (request.skipIfPresent = true → (site.HasArgument program request.name ↔
            callee.HasParameter program request.name request.type))) ∧
        ((site.gains program (apply program frontier request).edits ≠ [] ↔
            callee.gains (apply program frontier request).edits ≠ []) →
          (site.gains program (apply program frontier request).edits).length =
            (callee.gains (apply program frontier request).edits).length) := by
  have hp := hloaded.wellFormed
  obtain ⟨frontier, hplan, hproper, -⟩ := plan_proper hloaded hroots hd
  have hskipped : (apply program frontier request).skipped = [] := by
    rw [hproper.apply_eq request hp]
  refine ⟨frontier, hplan, hskipped, hproper.exactFor hp,
    fun a ha site hsite b hb callee hcallee => ?_⟩
  have hargument := @Frontier.Proper.adds_argument _ _ request hp hproper a ha site hsite
  have hparameter := @Frontier.Proper.adds_parameter _ _ request hp hproper b hb callee hcallee
  rw [hargument.ne_nil_iff, hparameter.ne_nil_iff, not_iff_not]
  refine ⟨?_, hargument.length_eq hparameter⟩
  cases request.skipIfPresent <;> simp

/-- A parameter that is declared already, and a call without the argument. -/
def unevenText : String :=
  "package main\n\nfunc g(foo int) \x7b\x7d\n\nfunc main(foo int) \x7b\n\tg(1)\n\x7d\n"

def repeatingRequest : Request := ⟨"foo", "int", "main.go:#19", false⟩

theorem apply_in_step_repeating : ∃ p d frontier,
    Program.ofSources (fun _ => none) [(⟨"main.go"⟩, unevenText)] = .ok p ∧
    (Scope.ofProgram p).hasRoots = true ∧ p.Selects (fun _ => none) repeatingRequest.position d ∧
    plan p (fun _ => none) repeatingRequest = .ok frontier ∧
    ∀ a ∈ frontier.callSites, ∀ site, AddressOf site a →
      ∀ b ∈ frontier.signatures, ∀ callee, Signs p callee b →
      (site.gains p (apply p frontier repeatingRequest).edits).length =
        (callee.gains (apply p frontier repeatingRequest).edits).length := by
  have hchecked : (Program.ofSources (fun _ => none) [(⟨"main.go"⟩, unevenText)]).toOption.any
      (fun p => (Scope.ofProgram p).hasRoots &&
        p.selects (fun _ => none) repeatingRequest.position) = true := by
    decide +kernel
  obtain ⟨p, hp, hchecked⟩ := any_toOption.mp hchecked
  obtain ⟨hroots, hselects⟩ := Bool.and_eq_true_iff.mp hchecked
  obtain ⟨d, hd⟩ := Program.exists_selects hselects
  obtain ⟨frontier, hplan, -, -, hstep⟩ := apply_in_step (.sources hp) hroots hd
  refine ⟨p, d, frontier, hp, hroots, hd, hplan, fun a ha site hsite b hb callee hcallee => ?_⟩
  obtain ⟨hiff, hlength⟩ := hstep a ha site hsite b hb callee hcallee
  exact hlength (hiff.mpr nofun)

/-! ## a call alone -/

theorem Edits.mem_entries_of_insertionsAt {e : Edits} {file : FileId} {offset : Nat} {i : Insertion}
    (h : i ∈ e.insertionsAt file offset) : (file, i) ∈ e.entries := by
  obtain ⟨x, hx, rfl⟩ := List.mem_map.mp (List.mem_filter.mp h).1
  obtain ⟨hx, hfile⟩ := List.mem_filter.mp hx
  rw [beq_iff_eq] at hfile
  rw [← hfile]
  exact hx

theorem Declaration.mem_entries_of_gains {d : Declaration} {e : Edits} {i : Insertion}
    (h : i ∈ d.gains e) : (d.file, i) ∈ e.entries := by
  unfold gains at h
  cases hparams : d.node.child? .parameters with
  | none => rw [hparams] at h; cases h
  | some params =>
    rw [hparams] at h
    exact Edits.mem_entries_of_insertionsAt h

def unevenRequest : Request := ⟨"foo", "int", "main.go:#19", true⟩

/-- The call gets the argument, while the declaration that it calls has the parameter and gets
nothing. -/
theorem apply_out_of_step : ∃ p d frontier a site b callee caller,
    Program.ofSources (fun _ => none) [(⟨"main.go"⟩, unevenText)] = .ok p ∧
    (Scope.ofProgram p).hasRoots = true ∧ p.Selects (fun _ => none) unevenRequest.position d ∧
    plan p (fun _ => none) unevenRequest = .ok frontier ∧
    a ∈ frontier.callSites ∧ AddressOf site a ∧ b ∈ frontier.signatures ∧ Signs p callee b ∧
    (CallGraph.build p (Scope.ofProgram p)).Calls caller site callee ∧
    site.gains p (apply p frontier unevenRequest).edits ≠ [] ∧
    callee.gains (apply p frontier unevenRequest).edits = [] := by
  have hedits : editsWithin 4 ⟨"main.go"⟩ unevenText unevenRequest =
      some ⟨[(0, ⟨58, .argument "foo", "foo, "⟩)]⟩ := by decide +kernel
  obtain ⟨p, d, frontier, hp, hroots, hd, hplan, hedits, -⟩ := editsWithin_eq_some hedits
  have hw := (Program.Loaded.sources hp).wellFormed
  obtain ⟨frontier', hplan', hproper, hholds⟩ := plan_proper (.sources hp) hroots hd
  cases hplan.symm.trans hplan'
  have hexact := @Frontier.Proper.exactFor _ _ unevenRequest hw hproper
  -- nothing but an argument is inserted
  have hnone : ∀ b ∈ frontier.signatures, ∀ callee, Signs p callee b →
      callee.gains (apply p frontier unevenRequest).edits = [] := by
    intro b hb callee hcallee
    by_contra hne
    have hadds := hexact.parameters b hb callee hcallee
    obtain ⟨offset, text, hone⟩ := hadds.absent (hadds.ne_nil_iff.mp hne)
    have hmem := Declaration.mem_entries_of_gains (d := callee) (hone ▸ List.mem_singleton_self _)
    rw [hedits] at hmem
    have hinserted := congrArg (·.2.inserted) (List.mem_singleton.mp hmem)
    cases hinserted
  have hentry : ((0, ⟨58, .argument "foo", "foo, "⟩) : FileId × Insertion) ∈
      (apply p frontier unevenRequest).edits.entries := by
    rw [hedits]
    exact List.mem_singleton_self _
  rcases hexact.onlyThese _ hentry with
    ⟨b, hb, callee, hcallee, -, hgain⟩ | ⟨a, ha, site, hsite, -, hgain⟩
  · rw [hnone b hb callee hcallee] at hgain
    cases hgain
  · obtain ⟨callee, caller, site', list, hcallee, hcalls, -, hsite'⟩ := hholds.site hw ha
    cases hsite.eq hsite'
    obtain ⟨b, hb, hsigns⟩ := hholds.exists_signs hw hd.declares hcallee
    exact ⟨p, d, frontier, a, site, b, callee, caller, hp, hroots, hd, hplan, ha, hsite, hb,
      hsigns, hcalls, List.ne_nil_of_mem hgain, hnone b hb callee hsigns⟩

end ParamThreading
