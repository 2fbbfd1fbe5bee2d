import ParamThreading.Proofs.IncomingCalls
import ParamThreading.Proofs.Independence

/-!
# What is made of a frontier

Any addresses can be asked for: a target of a wrong kind is passed over and leaves no trace, no
other failure can come up, and no file without targets changes. The frontier of a request has no
targets of a wrong kind, and they have different places, so that each of them gets its own
insertion, or none if what it would get is in place.

* `Frontier.changes`, `apply_eq`  a request as a sequence of changes;
* `applyOrFail`  a request that gives up at any failure but a wrong kind;
* `Frontier.fitting`  a frontier without its targets of a wrong kind;
* `plan_selects`  a request that has a frontier begins in a declaration;
* `apply_tolerant`  the edits of any frontier, and of those that requests have.
-/

namespace ParamThreading

/-! ## a request as a sequence of changes -/

namespace Change

variable {p : Program} {c : Change} {e : Edits}

def element : Change → Inserted
  | parameter _ name type _ => .parameter name type
  | argument _ name _ => .argument name

def failure? (p : Program) (c : Change) : Option Failure :=
  match c.make p .empty with
  | .ok _ => none
  | .error f => some f

/-- A change fails if its target is of a wrong kind, and for no other reason. -/
theorem failure?_cases (p : Program) (c : Change) :
    (c.place? p = none ∧ ∃ expected found,
      c.failure? p = some (.wrongKind expected found (c.address.location p)) ∧
      ∀ e, c.make p e = .error (.wrongKind expected found (c.address.location p))) ∨
    (c.place? p).isSome = true ∧ c.failure? p = none ∧
      ∀ e, ∃ o, c.make p e = .ok (o, c.after p e) := by
  rcases make_cases p c with ⟨hplace, expected, found, hmake⟩ | ⟨k, edit, hplace, -, hmake⟩
  · exact .inl ⟨hplace, expected, found, by rw [failure?, hmake], hmake⟩
  · exact .inr ⟨by rw [hplace]; rfl, by rw [failure?, hmake],
      fun e => ⟨(edit e).1, by rw [after, hmake]⟩⟩

theorem after_of_place?_none (h : c.place? p = none) : c.after p e = e := by
  rcases failure?_cases p c with ⟨-, expected, found, -, hmake⟩ | ⟨hsome, -⟩
  · rw [after, hmake]
  · rw [h] at hsome
    cases hsome

theorem afterAll_fitting (p : Program) (e : Edits) (cs : List Change) :
    afterAll p e (cs.filter fun c => (c.place? p).isSome) = afterAll p e cs := by
  induction cs generalizing e with
  | nil => rfl
  | cons c cs ih =>
    cases hc : c.place? p with
    | none =>
      rw [List.filter_cons_of_neg (by rw [hc]; exact Bool.false_ne_true), ih]
      exact congrArg (afterAll p · cs) (after_of_place?_none hc).symm
    | some k =>
      rw [List.filter_cons_of_pos (by rw [hc]; rfl)]
      exact ih (c.after p e)

theorem file_of_place? {k : Key} (h : c.place? p = some k) : k.file = c.address.file := by
  cases c with
  | parameter a name type skip =>
    obtain ⟨list, -, rfl⟩ := Option.map_eq_some_iff.mp h
    rfl
  | argument a name skip =>
    obtain ⟨call, -, h⟩ := Option.bind_eq_some_iff.mp h
    obtain ⟨list, -, rfl⟩ := Option.map_eq_some_iff.mp h
    rfl

theorem file_of_mem_afterAll {cs : List Change} {x : FileId × Insertion}
    (hx : x ∈ (afterAll p e cs).entries) : x ∈ e.entries ∨ ∃ c ∈ cs, c.address.file = x.1 := by
  rcases mem_afterAll hx with hx | ⟨c, hc, e', hx⟩
  · exact .inl hx
  · obtain ⟨k, hplace, hfile, -⟩ := mem_added hx
    exact .inr ⟨c, hc, by rw [hfile, file_of_place? hplace]⟩

end Change

def Frontier.changes (f : Frontier) (request : Request) : List Change :=
  f.signatures.map (.parameter · request.name request.type request.skipIfPresent) ++
    f.callSites.map (.argument · request.name request.skipIfPresent)

theorem Applied.take_make (acc : Applied) (p : Program) (c : Change) :
    acc.take (c.make p acc.edits) =
      ⟨c.after p acc.edits, acc.skipped ++ (c.failure? p).toList⟩ := by
  rcases c.failure?_cases p with ⟨hplace, expected, found, hfailure, hmake⟩ | ⟨-, hfailure, hmake⟩
  · rw [hmake, hfailure, c.after_of_place?_none hplace]
    rfl
  · obtain ⟨o, hmake⟩ := hmake acc.edits
    rw [hmake, hfailure, Option.toList_none, List.append_nil]
    rfl

theorem Applied.foldl_take_make (p : Program) (cs : List Change) (acc : Applied) :
    cs.foldl (fun acc c => acc.take (c.make p acc.edits)) acc =
      ⟨Change.afterAll p acc.edits cs, acc.skipped ++ cs.filterMap (Change.failure? p)⟩ := by
  induction cs generalizing acc with
  | nil => simp [Change.afterAll]
  | cons c cs ih =>
    rw [List.foldl_cons, take_make, ih]
    cases hc : c.failure? p with
    | none => simp [hc, Change.afterAll]
    | some f => simp [hc, Change.afterAll]

theorem apply_eq_foldl (p : Program) (frontier : Frontier) (request : Request) :
    apply p frontier request = (frontier.changes request).foldl
      (fun acc c => acc.take (c.make p acc.edits)) ⟨.empty, []⟩ := by
  rw [Frontier.changes, List.foldl_append, List.foldl_map, List.foldl_map]
  rfl

/-- The edits of a request are those of its changes, and the failures that it passes over are
theirs. -/
theorem apply_eq (p : Program) (frontier : Frontier) (request : Request) :
    apply p frontier request = ⟨Change.afterAll p .empty (frontier.changes request),
      (frontier.changes request).filterMap (Change.failure? p)⟩ := by
  rw [apply_eq_foldl, Applied.foldl_take_make, List.nil_append]

/-! ## any frontier -/

/-- Takes in the result of one edit, but gives up at a failure that is not a wrong kind. -/
def Applied.tolerate (acc : Applied) : Except Failure (Outcome × Edits) → Except Failure Applied
  | .ok (_, edits) => .ok { acc with edits }
  | .error (.wrongKind expected found location) =>
    .ok { acc with skipped := acc.skipped ++ [.wrongKind expected found location] }
  | .error f => .error f

/-- Makes the changes of a request, and gives up at a failure that is not a wrong kind. -/
def applyOrFail (p : Program) (frontier : Frontier) (request : Request) : Except Failure Applied :=
  (frontier.changes request).foldlM (fun acc c => acc.tolerate (c.make p acc.edits)) ⟨.empty, []⟩

theorem Applied.tolerate_make (acc : Applied) (p : Program) (c : Change) :
    acc.tolerate (c.make p acc.edits) = .ok (acc.take (c.make p acc.edits)) := by
  rcases c.failure?_cases p with ⟨-, expected, found, -, hmake⟩ | ⟨-, -, hmake⟩
  · rw [hmake]
    rfl
  · obtain ⟨o, hmake⟩ := hmake acc.edits
    rw [hmake]
    rfl

theorem applyOrFail_eq (p : Program) (frontier : Frontier) (request : Request) :
    applyOrFail p frontier request = .ok (apply p frontier request) := by
  rw [applyOrFail, apply_eq_foldl]
  generalize (⟨.empty, []⟩ : Applied) = acc
  induction frontier.changes request generalizing acc with
  | nil => rfl
  | cons c cs ih =>
    rw [List.foldlM_cons, Applied.tolerate_make]
    exact ih _

def Address.isParameterList (a : Address) : Bool :=
  a.node?.any (·.kind = .parameterList)

def Address.isCall (a : Address) : Bool :=
  a.node?.any fun n => n.kind = .callExpression && (n.child? .arguments).isSome

/-- A frontier without its targets of a wrong kind. -/
def Frontier.fitting (f : Frontier) : Frontier :=
  ⟨f.signatures.filter Address.isParameterList, f.callSites.filter Address.isCall⟩

theorem Change.isSome_place?_parameter (p : Program) (a : Address) (name type : String)
    (skip : Bool) : ((parameter a name type skip).place? p).isSome = a.isParameterList := by
  rw [place?, Option.isSome_map, Address.isParameterList]
  cases a.node? with
  | none => rfl
  | some n => by_cases hk : n.kind = .parameterList <;> simp [Option.filter, hk]

theorem Change.isSome_place?_argument (p : Program) (a : Address) (name : String) (skip : Bool) :
    ((argument a name skip).place? p).isSome = a.isCall := by
  rw [place?, Address.isCall]
  cases a.node? with
  | none => rfl
  | some n => by_cases hk : n.kind = .callExpression <;> simp [Option.filter, hk]

theorem Frontier.changes_fitting (f : Frontier) (p : Program) (request : Request) :
    f.fitting.changes request = (f.changes request).filter fun c => (c.place? p).isSome := by
  simp only [changes, fitting, List.filter_append, List.filter_map, Function.comp_def,
    Change.isSome_place?_parameter, Change.isSome_place?_argument]

section
variable {p : Program} {frontier : Frontier} {request : Request} {file : FileId}

theorem edits_fitting :
    (apply p frontier.fitting request).edits = (apply p frontier request).edits := by
  rw [apply_eq, apply_eq, frontier.changes_fitting p]
  exact Change.afterAll_fitting p .empty _

theorem skipped_fitting : (apply p frontier.fitting request).skipped = [] := by
  rw [apply_eq, frontier.changes_fitting p]
  refine List.filterMap_eq_nil_iff.mpr fun c hc => ?_
  rcases c.failure?_cases p with ⟨hnone, -⟩ | ⟨-, hfailure, -⟩
  · have hsome := (List.mem_filter.mp hc).2
    rw [hnone] at hsome
    cases hsome
  · exact hfailure

theorem mem_touchedFiles (h : (apply p frontier request).edits.insertions file ≠ []) :
    file ∈ frontier.touchedFiles := by
  obtain ⟨i, hi⟩ := List.exists_mem_of_ne_nil _ h
  obtain ⟨x, hx, -⟩ := List.mem_map.mp hi
  obtain ⟨hx, hfile⟩ := List.mem_filter.mp hx
  rw [apply_eq] at hx
  rcases Change.file_of_mem_afterAll hx with hx | ⟨c, hc, hc'⟩
  · cases hx
  rw [Frontier.touchedFiles, Frontier.filesOf, List.mem_eraseDups, ← beq_iff_eq.mp hfile, ← hc',
    List.map_append]
  rcases List.mem_append.mp hc with hc | hc
  · obtain ⟨a, ha, rfl⟩ := List.mem_map.mp hc
    exact List.mem_append_left _ (List.mem_map_of_mem ha)
  · obtain ⟨a, ha, rfl⟩ := List.mem_map.mp hc
    exact List.mem_append_right _ (List.mem_map_of_mem ha)

end

theorem Edits.render_of_nil {e : Edits} {p : Program} {file : FileId} (h : e.insertions file = []) :
    e.render p file = (p.file file).text := by
  rw [render, h]
  exact render_empty p file

/-! ## frontiers of requests -/

theorem Node.encloses_of_mem_enclosing {n m : Node} {a b : Nat} (h : m ∈ n.enclosing a b) :
    m = n ∨ m.encloses a b = true := by
  obtain ⟨inner, above, hsplit⟩ := List.append_of_mem h
  have hsuffix : (m :: above) <:+ n.enclosing a b := by
    rw [hsplit]
    exact List.suffix_append ..
  exact (encloses_of_suffix hsuffix).imp_left (·.1)

theorem SourceTree.declaration_of_enclosing {text : String} {root n : Node} {a b : Nat}
    (h : SourceTree text root) (hroot : root.isDeclaration = false) (hn : n ∈ root.enclosing a b)
    (hdecl : n.isDeclaration = true) :
    n ∈ root.children ∧ n.start ≤ a ∧ a < n.stop ∧ b ≤ n.stop := by
  have hne : n ≠ root := by
    rintro rfl
    rw [hroot] at hdecl
    cases hdecl
  rcases Node.mem_everything.mp (Node.mem_everything_of_mem_enclosing hn) with heq | ⟨c, hc, hnc⟩
  · exact absurd heq hne
  cases h.top c hc n hnc hdecl
  have hencloses := (Node.encloses_of_mem_enclosing hn).resolve_left hne
  obtain ⟨h₁, h₂, h₃⟩ := Node.encloses_iff.mp hencloses
  have hlt := h.filled n hc
  exact ⟨hc, h₁, by omega, h₂⟩

theorem file_of_resolve {p : Program} {onDisk : Path → Option Path} {position : String}
    {needExact : Bool} {a : Address} (h : resolve p onDisk position needExact = .ok a) :
    a.file < p.files.length := by
  obtain ⟨descriptor, -, h⟩ := bind_eq_ok.mp h
  split at h
  case h_1 file hfile =>
    have hlt : file < p.files.length := by
      rcases Option.or_eq_some_iff.mp hfile with hfile | ⟨-, hfile⟩
      · exact (List.findIdx?_eq_some_iff_getElem.mp hfile).1
      · obtain ⟨real, -, hfile⟩ := Option.bind_eq_some_iff.mp hfile
        exact (List.findIdx?_eq_some_iff_getElem.mp hfile).1
    rwa [(eq_of_resolveRange h).1]
  case h_2 => cases h

/-- A request that has a frontier begins in a declaration of a program with roots. -/
theorem plan_selects {program : Program} {onDisk : Path → Option Path} {request : Request}
    {frontier : Frontier} (hp : program.WellFormed)
    (h : plan program onDisk request = .ok frontier) :
    (Scope.ofProgram program).hasRoots = true ∧ ∃ d, program.Selects onDisk request.position d := by
  obtain ⟨a, ha, h⟩ := bind_eq_ok.mp h
  obtain ⟨start, hstart, h⟩ := bind_eq_ok.mp h
  obtain ⟨graph, hgraph, -⟩ := bind_eq_ok.mp h
  have hroots : (Scope.ofProgram program).hasRoots = true := by
    by_contra hno
    rw [CallGraph.ofProgram, if_neg hno] at hgraph
    cases hgraph
  have hfile := file_of_resolve ha
  have hpath := resolve_path ha
  obtain ⟨n, hn, hdecl⟩ : ∃ n ∈ a.path, n.isDeclaration = true := by
    unfold signatureOf Address.signature? at hstart
    cases hparams : parameterPath? a.path with
    | none => rw [hparams] at hstart; cases hstart
    | some ps =>
      obtain ⟨inner, d, above, -, hsplit, -, hdecl, -⟩ := exists_of_parameterPath? hparams
      exact ⟨d, by rw [hsplit]; simp, hdecl⟩
  have hparsed := hp.parsed _ (Program.file_mem hfile)
  have hroot : (program.file a.file).tree.isDeclaration = false := by
    rw [Node.isDeclaration_eq, Grammar.kind_of_parse hparsed]
    rfl
  rw [hpath] at hn
  obtain ⟨hchild, h₁, h₂, h₃⟩ :=
    (Grammar.parse_sourceTree hparsed).declaration_of_enclosing hroot hn hdecl
  exact ⟨hroots, ⟨a.file, n⟩, ⟨hfile, hchild, hdecl⟩, a, ha, rfl, h₁, h₂, h₃⟩

/-! ## one insertion for each target -/

/-- The places and elements of insertions, in the order in which they were recorded. -/
def Edits.marks (e : Edits) : List (Option Key × Inserted) :=
  e.entries.map fun x => (some ⟨x.1, x.2.offset⟩, x.2.inserted)

def Change.mark (p : Program) (c : Change) : Option Key × Inserted :=
  (c.place? p, c.element)

def Target.mark (t : Target) : Option Key × Inserted :=
  (some ⟨t.file, t.insertion.offset⟩, t.insertion.inserted)

section
variable {p : Program} {frontier : Frontier} (request : Request)

theorem Frontier.Proper.map_mark (hp : p.WellFormed) (h : frontier.Proper p) :
    (p.targets frontier request).map Target.mark =
      (frontier.changes request).map (Change.mark p) := by
  rw [Program.targets, changes, List.map_append, List.map_append, List.map_map, List.map_map]
  refine congrArg₂ _ (map_filterMap_eq fun a ha => ?_) (map_filterMap_eq fun a ha => ?_)
  · obtain ⟨d, hd, hsigns⟩ := h.signatures a ha
    obtain ⟨params, -, hk, htarget, -⟩ := Program.signatureTarget?_eq request hd hsigns
    obtain ⟨params', hshape, rfl⟩ := hsigns
    cases Option.some.inj htarget
    refine ⟨_, rfl, ?_⟩
    simp [Target.mark, Program.parameterTarget, Change.mark, Change.place?, Change.element,
      Address.ofNode, Address.node?, Option.filter, hk]
  · obtain ⟨site, list, haddress, hlist, hnode, hk⟩ := h.callSites a ha
    obtain ⟨htarget, -⟩ := Program.callTarget?_eq request hp haddress hlist hnode hk
    refine ⟨_, htarget, ?_⟩
    simp [Target.mark, Program.argumentTarget, Change.mark, Change.place?, Change.element,
      haddress.node, haddress.file, haddress.call, hlist, Option.filter]

theorem Frontier.Proper.nodup_place? (hp : p.WellFormed) (h : frontier.Proper p) :
    ((frontier.changes request).map (Change.place? p)).Nodup := by
  have hplaces : (frontier.changes request).map (Change.place? p) =
      (p.targets frontier request).map fun t => some ⟨t.file, t.insertion.offset⟩ := by
    have hfirst := congrArg (List.map Prod.fst) (h.map_mark request hp)
    rw [List.map_map, List.map_map] at hfirst
    exact hfirst.symm
  rw [hplaces]
  refine List.pairwise_map.mpr ((h.targets_apart request hp).imp fun {t t'} hapart heq => ?_)
  have hkey := Option.some.inj heq
  exact hapart (congrArg Key.file hkey) (congrArg Key.offset hkey)

theorem Frontier.Proper.marks_eq (hp : p.WellFormed) (h : frontier.Proper p) :
    (apply p frontier request).edits.marks =
      ((p.targets frontier request).filter (Target.isDue request.skipIfPresent)).map
        Target.mark := by
  rw [h.apply_eq request hp, Edits.marks, List.map_map]
  rfl

theorem Frontier.Proper.fitting_eq (h : frontier.Proper p) : frontier.fitting = frontier := by
  have hsignatures : frontier.signatures.filter Address.isParameterList = frontier.signatures := by
    refine List.filter_eq_self.mpr fun a ha => ?_
    obtain ⟨d, -, params, hshape, rfl⟩ := h.signatures a ha
    simp [Address.isParameterList, Address.ofNode, Address.node?, hshape.list]
  have hcalls : frontier.callSites.filter Address.isCall = frontier.callSites := by
    refine List.filter_eq_self.mpr fun a ha => ?_
    obtain ⟨site, list, haddress, hlist, -⟩ := h.callSites a ha
    simp [Address.isCall, haddress.node, haddress.call, hlist]
  rw [fitting, hsignatures, hcalls]

end

/-- A request makes its edits of any frontier: it meets no failure but wrong kinds, targets of a
wrong kind leave no trace, and all insertions go to files of targets, so that the other files stay
as they are. The frontier that a request has is without such targets, and each of its targets gets
its element at a place of its own, or nothing if that is left alone. -/
theorem apply_tolerant {program : Program} (hloaded : program.Loaded) :
    (∀ frontier request,
      applyOrFail program frontier request = .ok (apply program frontier request) ∧
      (apply program frontier request).edits = (apply program frontier.fitting request).edits ∧
      (apply program frontier.fitting request).skipped = [] ∧
      frontier.touchedFiles.Nodup ∧
      (∀ file, (apply program frontier request).edits.insertions file ≠ [] →
        file ∈ frontier.touchedFiles) ∧
      ∀ file, file ∉ frontier.touchedFiles →
        (apply program frontier request).edits.render program file = (program.file file).text) ∧
    ∀ onDisk planned frontier, plan program onDisk planned = .ok frontier →
      frontier.fitting = frontier ∧ ∀ request,
        ((frontier.changes request).map (Change.place? program)).Nodup ∧
        (apply program frontier request).edits.marks.Sublist
          ((frontier.changes request).map (Change.mark program)) ∧
        (request.skipIfPresent = false → (apply program frontier request).edits.marks =
          (frontier.changes request).map (Change.mark program)) := by
  constructor
  · intro frontier request
    refine ⟨applyOrFail_eq .., edits_fitting.symm, skipped_fitting, nodup_eraseDups _,
      fun file => mem_touchedFiles, fun file hfile => Edits.render_of_nil ?_⟩
    by_contra hne
    exact hfile (mem_touchedFiles hne)
  · intro onDisk planned frontier hplan
    have hp := hloaded.wellFormed
    obtain ⟨hroots, d, hd⟩ := plan_selects hp hplan
    obtain ⟨_, hplan', hproper, -⟩ := plan_proper hloaded hroots hd
    cases hplan.symm.trans hplan'
    refine ⟨hproper.fitting_eq, fun request =>
      ⟨hproper.nodup_place? request hp, ?_, fun hskip => ?_⟩⟩
    · rw [hproper.marks_eq request hp, ← hproper.map_mark request hp]
      exact List.filter_sublist.map _
    · rw [hproper.marks_eq request hp, ← hproper.map_mark request hp, hskip]
      refine congrArg _ (List.filter_eq_self.mpr fun t _ => ?_)
      rfl

/-- The calls of a frontier taken for parameter lists and the other way round, and an empty address.
-/
def Frontier.muddled (f : Frontier) : Frontier :=
  ⟨⟨0, 0, 0, [], false⟩ :: f.callSites ++ f.signatures, f.signatures ++ f.callSites⟩

theorem Frontier.fitting_muddled {f : Frontier} (h : f.fitting = f) : f.muddled.fitting = f := by
  have hother : ∀ a : Address, ¬ (a.isParameterList = true ∧ a.isCall = true) := by
    rintro a ⟨hlist, hcall⟩
    rw [Address.isParameterList, Option.any_eq_true] at hlist
    rw [Address.isCall, Option.any_eq_true] at hcall
    obtain ⟨n, hn, hk⟩ := hlist
    obtain ⟨m, hm, hk'⟩ := hcall
    cases hn.symm.trans hm
    have hkind := of_decide_eq_true hk
    simp [hkind] at hk'
  have hsignatures : f.signatures.filter Address.isParameterList = f.signatures :=
    congrArg signatures h
  have hcalls : f.callSites.filter Address.isCall = f.callSites := congrArg callSites h
  have hnone : f.callSites.filter Address.isParameterList = [] :=
    List.filter_eq_nil_iff.mpr fun a ha hlist =>
      hother a ⟨hlist, List.filter_eq_self.mp hcalls a ha⟩
  have hnone' : f.signatures.filter Address.isCall = [] :=
    List.filter_eq_nil_iff.mpr fun a ha hcall =>
      hother a ⟨List.filter_eq_self.mp hsignatures a ha, hcall⟩
  simp [muddled, fitting, List.filter_append, hsignatures, hcalls, hnone, hnone',
    Address.isParameterList, Address.node?]

def repeatedEdits : Edits :=
  ⟨[(0, ⟨21, .parameter "foo" "int", "foo int, "⟩), (0, ⟨44, .parameter "foo" "int", "foo int, "⟩),
    (0, ⟨58, .argument "foo", "foo, "⟩)]⟩

theorem apply_tolerant_muddled : ∃ p frontier,
    Program.ofSources (fun _ => none) [(⟨"main.go"⟩, unevenText)] = .ok p ∧
    plan p (fun _ => none) repeatingRequest = .ok frontier ∧
    (apply p frontier.muddled repeatingRequest).edits = repeatedEdits ∧
    repeatedEdits.marks = (frontier.changes repeatingRequest).map (Change.mark p) := by
  have hedits : editsWithin 4 ⟨"main.go"⟩ unevenText repeatingRequest = some repeatedEdits := by
    decide +kernel
  obtain ⟨p, d, frontier, hp, -, -, hplan, hedits, -⟩ := editsWithin_eq_some hedits
  obtain ⟨hany, hplanned⟩ := apply_tolerant (.sources hp)
  obtain ⟨hfitting, hmarks⟩ := hplanned _ _ _ hplan
  obtain ⟨-, hsame, -⟩ := hany frontier.muddled repeatingRequest
  refine ⟨p, frontier, hp, hplan, ?_, ?_⟩
  · rw [hsame, Frontier.fitting_muddled hfitting, hedits]
  · rw [← hedits]
    exact (hmarks repeatingRequest).2.2 rfl

end ParamThreading
