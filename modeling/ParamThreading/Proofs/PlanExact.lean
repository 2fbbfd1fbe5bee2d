import ParamThreading.Proofs.CallAnswers
import ParamThreading.Proofs.CallerClosure
import ParamThreading.Threading.Plan

/-!
# What a request touches

From a position in a declaration the walk to the callers ends without failure, and it finds the
declarations that have to change together with that one, and their calls.

* `Program.Threaded`  the declarations that have to change together with one;
* `visits_iff`  the walk comes to their parameter lists;
* `plan_exact`  the frontier of a request.
-/

namespace ParamThreading

structure Program.Encloses (p : Program) (d : Declaration) (site : CallSite) : Prop where
  declares : p.Declares d
  file : site.file = d.file
  node : site.node ∈ d.node.everything

/-- The declarations that have to change together with one: that one, and those around calls of such
declarations. -/
inductive Program.Threaded (p : Program) (g : CallGraph) (start : Declaration) :
    Declaration → Prop where
  | start : Threaded p g start start
  | caller {d d' : Declaration} {caller : FunctionId} {site : CallSite} : Threaded p g start d →
      g.Calls caller site d → p.Encloses d' site → Threaded p g start d'

/-! ## the declaration around a call -/

section
variable {p : Program} {scope : Scope} {site : CallSite} {e : CallEdge} {d d' : Declaration}

theorem Program.Encloses.eq_item (hp : p.WellFormed) {edge : Edge} {i : Item}
    (hi : CallGraph.SiteOf p edge site i) (hd : p.Encloses d site) :
    i.isFunction = true ∧ d = ⟨site.file, i.node⟩ := by
  have hlt := (CallGraph.resolveRange_site hp hi).1
  have htree := hd.declares.tree hp
  have hin := Node.covers (htree.neat _ hd.declares.child) hd.node
  have hmem : site.node ∈ i.node.everything := by
    obtain ⟨ps, hpath⟩ := hi.path
    exact hpath.mem_everything _ List.mem_cons_self
  have hin' := Node.covers (hi.item.tree hp).1 hmem
  have hchild := hi.item.child
  rw [← hi.inFile, hd.file] at hchild
  have hnode : d.node = i.node :=
    hd.declares.eq_of_covers hp hchild hi.item.named ⟨hin.1, by omega⟩ ⟨hin'.1, by omega⟩
  rw [hi.item.isFunction, ← hnode, hd.file]
  exact ⟨hd.declares.isDeclaration, rfl⟩

/-- What a call that is answered leads to: the declaration around it, if there is one. -/
theorem enclosingSignature_answers (hp : p.WellFormed)
    (hcalls : (CallGraph.build p scope).Calls e.caller site d)
    (he : (CallGraph.build p scope).Answers p site e) :
    (enclosingSignature p e = .ok none ∧ ∀ d', ¬ p.Encloses d' site) ∨
      ∃ d' s, enclosingSignature p e = .ok (some s) ∧ Signs p d' s ∧ p.Encloses d' site ∧
        ∀ d'', p.Encloses d'' site → d'' = d' := by
  obtain ⟨callee, hedge, -⟩ := hcalls.edge
  obtain ⟨i, hi⟩ := CallGraph.siteOf_edge hp hedge rfl
  obtain ⟨-, -, a, ha, -, hsignature⟩ := CallGraph.resolveRange_site hp hi
  cases ha.symm.trans he.site
  obtain ⟨f, hf, hkind⟩ := hi.caller.kind
  have hcaller : e.callerKind = .ofFunction f.kind := by
    rw [he.callerKind, CallGraph.kind, CallGraph.functions_build, hf]
    rfl
  rw [← hcaller] at hkind
  unfold enclosingSignature
  cases hfun : i.isFunction with
  | true =>
    obtain ⟨s, hs, hsigns⟩ := hsignature hfun
    rw [hkind.mpr hfun, hs]
    refine .inr ⟨_, s, rfl, hsigns, ⟨⟨?_, ?_, ?_⟩, rfl, ?_⟩, fun d' hd' => (hd'.eq_item hp hi).2⟩
    · rw [hi.inFile]; exact hi.item.file
    · rw [hi.inFile]; exact hi.item.child
    · rw [← hi.item.isFunction]; exact hfun
    · obtain ⟨ps, hpath⟩ := hi.path
      exact hpath.mem_everything _ List.mem_cons_self
  | false =>
    refine .inl ⟨?_, fun d' hd' => ?_⟩
    · cases hk : e.callerKind with
      | function => rw [hkind.mp hk] at hfun; cases hfun
      | packageInit => rfl
      | detachedLiteral => rfl
    · rw [(hd'.eq_item hp hi).1] at hfun
      cases hfun

end

/-! ## the walk -/

section
variable {p : Program} {scope : Scope} {d d' : Declaration} {start a : Address}

theorem Program.Threaded.declares {g : CallGraph} (hd : p.Declares d) (h : p.Threaded g d d') :
    p.Declares d' := by
  cases h with
  | start => exact hd
  | caller _ _ henc => exact henc.declares

/-- From the parameter list of a declaration the walk comes to those of the declarations that have
to change with it. -/
theorem visits_iff (hp : p.WellFormed) (hd : p.Declares d) (hstart : Signs p d start) :
    Visits p ((CallGraph.build p scope).incoming p) start a ↔
      ∃ d', p.Threaded (CallGraph.build p scope) d d' ∧ Signs p d' a := by
  constructor
  · intro h
    induction h with
    | start => exact ⟨d, .start, hstart⟩
    | @caller a s edges e _ hq he hs ih =>
      obtain ⟨d', hd', ha⟩ := ih
      obtain ⟨answer, hanswer, hsound, -⟩ :=
        @CallGraph.incoming_eq p scope d' a hp (hd'.declares hd) ha
      cases hq.symm.trans hanswer
      obtain ⟨site, hcalls, hans⟩ := hsound e he
      rcases enclosingSignature_answers hp hcalls hans
        with ⟨hnone, -⟩ | ⟨d'', s', hs', hsigns, henc, -⟩
      · cases hs.symm.trans hnone
      · cases hs.symm.trans hs'
        exact ⟨d'', .caller hd' hcalls henc, hsigns⟩
  · rintro ⟨d', hd', ha⟩
    induction hd' generalizing a with
    | start =>
      cases hstart.unique ha
      exact .start
    | @caller d₁ d₂ caller site hd₁ hcalls henc ih =>
      obtain ⟨b, hb⟩ := (hd₁.declares hd).exists_signs hp
      obtain ⟨answer, hanswer, -, hcomplete⟩ :=
        @CallGraph.incoming_eq p scope d₁ b hp (hd₁.declares hd) hb
      obtain ⟨e, he, rfl, hans⟩ := hcomplete caller site hcalls
      rcases enclosingSignature_answers hp hcalls hans
        with ⟨-, hnone⟩ | ⟨d', s, hs, hsigns, -, hunique⟩
      · exact absurd henc (hnone d₂)
      · cases hunique d₂ henc
        cases ha.unique hsigns
        exact .caller (ih hb) hanswer he hs

theorem visitedCall_iff (hp : p.WellFormed) (hd : p.Declares d) (hstart : Signs p d start)
    {site : Address} :
    (∃ e, VisitedCall p ((CallGraph.build p scope).incoming p) start e ∧ e.site = site) ↔
      ∃ d' caller call, p.Threaded (CallGraph.build p scope) d d' ∧
        (CallGraph.build p scope).Calls caller call d' ∧
        resolveRange p call.file call.node.start call.node.stop true = .ok site := by
  constructor
  · rintro ⟨e, ⟨a, edges, ha, hq, he⟩, rfl⟩
    obtain ⟨d', hd', ha⟩ := (visits_iff hp hd hstart).mp ha
    obtain ⟨answer, hanswer, hsound, -⟩ :=
      @CallGraph.incoming_eq p scope d' a hp (hd'.declares hd) ha
    cases hq.symm.trans hanswer
    obtain ⟨call, hcalls, hans⟩ := hsound e he
    exact ⟨d', e.caller, call, hd', hcalls, hans.site⟩
  · rintro ⟨d', caller, call, hd', hcalls, hsite⟩
    obtain ⟨a, ha⟩ := (hd'.declares hd).exists_signs hp
    obtain ⟨answer, hanswer, -, hcomplete⟩ :=
      @CallGraph.incoming_eq p scope d' a hp (hd'.declares hd) ha
    obtain ⟨e, he, rfl, hans⟩ := hcomplete caller call hcalls
    refine ⟨e, ⟨a, answer, (visits_iff hp hd hstart).mpr ⟨d', hd', ha⟩, hanswer, he⟩, ?_⟩
    exact Except.ok.inj (hans.site.symm.trans hsite)

theorem not_stuck (hp : p.WellFormed) (hd : p.Declares d) (ha : Signs p d a) :
    ¬ Stuck ((CallGraph.build p scope).incoming p) a := by
  obtain ⟨answer, hanswer, hsound, -⟩ := @CallGraph.incoming_eq p scope d a hp hd ha
  rintro (⟨f, hf⟩ | ⟨edges, hq, e, he, hbad⟩)
  · cases hf.symm.trans hanswer
  · cases hq.symm.trans hanswer
    obtain ⟨site, hcalls, hans⟩ := hsound e he
    obtain ⟨f, hf⟩ := (enclosingSignature_error p e).mpr hbad
    rcases enclosingSignature_answers hp hcalls hans with ⟨hnone, -⟩ | ⟨_, s, hs, -⟩
    · cases hf.symm.trans hnone
    · cases hf.symm.trans hs

def Program.parameterPlaces (p : Program) : List Key :=
  (List.range p.files.length).flatMap fun file =>
    (p.file file).tree.children.filterMap fun n =>
      (n.child? .parameters).map fun params => ⟨file, params.start⟩

theorem Signs.mem_parameterPlaces (hd : p.Declares d) (ha : Signs p d a) :
    a.key ∈ p.parameterPlaces := by
  obtain ⟨params, hparams, hkey⟩ := ha.key
  refine List.mem_flatMap.mpr ⟨d.file, List.mem_range.mpr hd.file, ?_⟩
  exact List.mem_filterMap.mpr ⟨d.node, hd.child, by rw [hparams, hkey]; rfl⟩

theorem propagate_threads (hp : p.WellFormed) (hd : p.Declares d) (hstart : Signs p d start) :
    let query := (CallGraph.build p scope).incoming p
    (propagate p query start).Threads p query start (.seeded start) ∧
      (propagate p query start).failure = none := by
  intro query
  have hvisits : ∀ a, Visits p query start a → ∃ d', p.Declares d' ∧ Signs p d' a := by
    intro a ha
    obtain ⟨d', hd', ha⟩ := (visits_iff hp hd hstart).mp ha
    exact ⟨d', hd'.declares hd, ha⟩
  have hkey : KeyOnly p query start := by
    intro a b ha hb hab
    obtain ⟨d₁, hd₁, ha⟩ := hvisits a ha
    obtain ⟨d₂, hd₂, hb⟩ := hvisits b hb
    cases ha.eq_of_key hp hd₁ hd₂ hb hab
    rw [ha.unique hb]
  have hfin : {k | ∃ a, Visits p query start a ∧ a.key = k}.Finite := by
    refine (List.finite_toSet p.parameterPlaces).subset ?_
    rintro k ⟨a, ha, rfl⟩
    obtain ⟨d', hd', ha⟩ := hvisits a ha
    exact ha.mem_parameterPlaces hd'
  have hw : (propagate p query start).Threads p query start (.seeded start) :=
    propagateInto_threads hkey hfin (.seeded start)
  refine ⟨hw, ?_⟩
  by_contra hf
  obtain ⟨a, ha, hstuck⟩ := hw.failure.mp hf
  obtain ⟨d', hd', ha⟩ := hvisits a ha
  exact not_stuck hp hd' ha hstuck

/-- What a frontier holds: the parameter lists of the declarations that have to change together with
one, and the calls of these. -/
structure Frontier.Holds (f : Frontier) (p : Program) (g : CallGraph) (d : Declaration) : Prop where
  signatures : ∀ a ∈ f.signatures, ∃ d', p.Threaded g d d' ∧ Signs p d' a
  signatureKeys : ∀ d', p.Threaded g d d' → ∀ a, Signs p d' a → a.key ∈ f.signatureKeys
  callSites : ∀ a ∈ f.callSites, ∃ d' caller site, p.Threaded g d d' ∧ g.Calls caller site d' ∧
    resolveRange p site.file site.node.start site.node.stop true = .ok a
  callKeys : ∀ d' caller site, p.Threaded g d d' → g.Calls caller site d' → ∀ a,
    resolveRange p site.file site.node.start site.node.stop true = .ok a → a.callKey ∈ f.callKeys

theorem propagate_holds (hp : p.WellFormed) (hd : p.Declares d) (hstart : Signs p d start) :
    (propagate p ((CallGraph.build p scope).incoming p) start).frontier.Holds p
      (CallGraph.build p scope) d := by
  obtain ⟨hw, hok⟩ := @propagate_threads p scope d start hp hd hstart
  refine ⟨fun a ha => ?_, fun d' hd' a ha => ?_, fun a ha => ?_,
    fun d' caller site hd' hcalls a ha => ?_⟩
  · rcases hw.signatures a ha with ha | ⟨e, ⟨b, edges, hb, hq, he⟩, hs⟩
    · rw [List.mem_singleton.mp ha]
      exact ⟨d, .start, hstart⟩
    · exact (visits_iff hp hd hstart).mp (.caller hb hq he hs)
  · cases (visits_iff hp hd hstart).mpr ⟨d', hd', ha⟩ with
    | start => exact hw.grows.mem_signatureKeys (List.mem_singleton_self _)
    | caller hb hq he hs => exact (hw.taken hok _ ⟨_, _, hb, hq, he⟩).2 _ hs
  · rcases hw.callSites a ha with ha | hcall
    · cases ha
    · exact (visitedCall_iff hp hd hstart).mp hcall
  · obtain ⟨e, he, rfl⟩ := (visitedCall_iff hp hd hstart).mpr ⟨d', caller, site, hd', hcalls, ha⟩
    exact (hw.taken hok e he).1

end

/-! ## the frontier of a request -/

theorem eq_of_resolveRange {p : Program} {file : FileId} {start stop : Nat} {needExact : Bool}
    {a : Address} (h : resolveRange p file start stop needExact = .ok a) :
    a.file = file ∧ a.start = start ∧ a.stop = stop ∧
      a.path = (p.file a.file).tree.enclosing a.start a.stop := by
  unfold resolveRange at h
  dsimp only at h
  split at h
  · cases h
  · split at h
    · cases h
    · cases h
      exact ⟨rfl, rfl, rfl, rfl⟩

theorem resolve_path {p : Program} {onDisk : Path → Option Path} {position : String}
    {needExact : Bool} {a : Address} (h : resolve p onDisk position needExact = .ok a) :
    a.path = (p.file a.file).tree.enclosing a.start a.stop := by
  obtain ⟨descriptor, -, h⟩ := bind_eq_ok.mp h
  split at h
  · exact (eq_of_resolveRange h).2.2.2
  · cases h

theorem signatureOf_declaration {p : Program} (hp : p.WellFormed) {d : Declaration} {a : Address}
    (hd : p.Declares d) (hfile : a.file = d.file)
    (hpath : a.path = (p.file a.file).tree.enclosing a.start a.stop)
    (hin : d.node.encloses a.start a.stop = true) :
    ∃ s, signatureOf p a = .ok s ∧ Signs p d s := by
  have htree := hd.tree hp
  obtain ⟨inner, henclosing, hinner⟩ := htree.enclosing_declaration hd.child hd.isDeclaration hin
  obtain ⟨params, hshape, -⟩ := htree.declaration _ hd.child hd.isDeclaration
  rw [hfile, henclosing] at hpath
  have hs := signature?_declaration hpath hinner hshape
  refine ⟨_, by rw [signatureOf, hs], params, hshape, by rw [hfile]⟩

/-- A written position lies in a declaration of a program. A point at the end of a declaration lies
behind it. -/
structure Program.Selects (p : Program) (onDisk : Path → Option Path) (position : String)
    (d : Declaration) : Prop where
  declares : p.Declares d
  inside : ∃ a, resolve p onDisk position false = .ok a ∧ a.file = d.file ∧
    d.node.start ≤ a.start ∧ a.start < d.node.stop ∧ a.stop ≤ d.node.stop

theorem plan_eq {program : Program} {onDisk : Path → Option Path} {request : Request}
    {d : Declaration} (hp : program.WellFormed) (hroots : (Scope.ofProgram program).hasRoots = true)
    (hd : program.Selects onDisk request.position d) :
    ∃ s, Signs program d s ∧ plan program onDisk request = .ok (propagate program
      ((CallGraph.build program (Scope.ofProgram program)).incoming program) s).frontier := by
  obtain ⟨a, ha, hfile, hstart, hinside, hstop⟩ := hd.inside
  have hin : d.node.encloses a.start a.stop = true :=
    Node.encloses_iff.mpr ⟨hstart, hstop, .inl hinside⟩
  obtain ⟨s, hs, hsigns⟩ := signatureOf_declaration hp hd.declares hfile (resolve_path ha) hin
  have hgraph : CallGraph.ofProgram program = .ok (.build program (Scope.ofProgram program)) :=
    if_pos hroots
  refine ⟨s, hsigns, bind_eq_ok.mpr ⟨a, ha, bind_eq_ok.mpr ⟨s, hs, bind_eq_ok.mpr ⟨_, hgraph, ?_⟩⟩⟩⟩
  dsimp only
  rw [(propagate_threads hp hd.declares hsigns).2]
  rfl

/-- A frontier has the parameter lists of the declarations that have to change together with one and
the calls of these, each once and under the place of its opening parenthesis. -/
structure Frontier.ExactFor (f : Frontier) (p : Program) (g : CallGraph) (d : Declaration) :
    Prop where
  first : ∃ params, d.node.child? .parameters = some params ∧
    f.signatureKeys.head? = some ⟨d.file, params.start⟩
  signaturesOnce : f.signatureKeys.Nodup
  signatures : ∀ k, k ∈ f.signatureKeys ↔ ∃ d' params, p.Threaded g d d' ∧
    d'.node.child? .parameters = some params ∧ k = ⟨d'.file, params.start⟩
  callsOnce : f.callKeys.Nodup
  calls : ∀ k, k ∈ f.callKeys ↔ ∃ d' caller site args, p.Threaded g d d' ∧
    g.Calls caller site d' ∧ site.node.child? .arguments = some args ∧ k = ⟨site.file, args.start⟩

/-- From a position in a declaration a request reaches what has to change together with it. Calls
count wherever they stand, also in package variables and in literals outside declarations. -/
theorem plan_exact {program : Program} {onDisk : Path → Option Path} {request : Request}
    {d : Declaration} (hloaded : program.Loaded)
    (hroots : (Scope.ofProgram program).hasRoots = true)
    (hd : program.Selects onDisk request.position d) :
    ∃ frontier, plan program onDisk request = .ok frontier ∧
      frontier.ExactFor program (.build program (Scope.ofProgram program)) d := by
  have hp := hloaded.wellFormed
  obtain ⟨s, hsigns, hplan⟩ := plan_eq hp hroots hd
  have hd := hd.declares
  have hgrows := (@propagate_threads program (Scope.ofProgram program) d s hp hd hsigns).1.grows
  have hholds := @propagate_holds program (Scope.ofProgram program) d s hp hd hsigns
  refine ⟨_, hplan, ?_, hgrows.signatures.nodup (List.nodup_singleton _),
    fun k => ⟨fun hk => ?_, ?_⟩, hgrows.callSites.nodup List.nodup_nil, fun k => ⟨fun hk => ?_, ?_⟩⟩
  · obtain ⟨params, hparams, hkey⟩ := hsigns.key
    obtain ⟨rest, hrest⟩ := hgrows.signatures.isPrefix
    refine ⟨params, hparams, ?_⟩
    rw [Frontier.signatureKeys, ← hrest, ← hkey]
    rfl
  · obtain ⟨a, ha, rfl⟩ := List.mem_map.mp hk
    obtain ⟨d', hd', ha⟩ := hholds.signatures a ha
    obtain ⟨params, hparams, hkey⟩ := ha.key
    exact ⟨d', params, hd', hparams, hkey⟩
  · rintro ⟨d', params, hd', hparams, rfl⟩
    obtain ⟨a, ha⟩ := (hd'.declares hd).exists_signs hp
    obtain ⟨params', hparams', hkey⟩ := ha.key
    cases hparams.symm.trans hparams'
    exact hkey ▸ hholds.signatureKeys d' hd' a ha
  · obtain ⟨a, ha, rfl⟩ := List.mem_map.mp hk
    obtain ⟨d', caller, site, hd', hcalls, ha⟩ := hholds.callSites a ha
    obtain ⟨a', args, ha', hargs, haddress⟩ := hcalls.address hp
    cases ha.symm.trans ha'
    exact ⟨d', caller, site, args, hd', hcalls, hargs, haddress.callKey hargs⟩
  · rintro ⟨d', caller, site, args, hd', hcalls, hargs, rfl⟩
    obtain ⟨a, args', ha, hargs', haddress⟩ := hcalls.address hp
    cases hargs.symm.trans hargs'
    exact haddress.callKey hargs ▸ hholds.callKeys d' caller site hd' hcalls a ha

def Program.selects (p : Program) (onDisk : Path → Option Path) (position : String) : Bool :=
  (resolve p onDisk position false).toOption.any fun a =>
    decide (a.file < p.files.length) && (p.file a.file).tree.children.any fun d =>
      d.isDeclaration && d.start ≤ a.start && a.start < d.stop && a.stop ≤ d.stop

theorem Program.exists_selects {p : Program} {onDisk : Path → Option Path} {position : String}
    (h : p.selects onDisk position = true) : ∃ d, p.Selects onDisk position d := by
  obtain ⟨a, ha, h⟩ := any_toOption.mp h
  simp only [Bool.and_eq_true, decide_eq_true_eq, List.any_eq_true] at h
  obtain ⟨hfile, n, hn, ⟨⟨hdecl, hstart⟩, hinside⟩, hstop⟩ := h
  exact ⟨⟨a.file, n⟩, ⟨hfile, hn, hdecl⟩, a, ha, rfl, hstart, hinside, hstop⟩

def paritySources : List (Path × String) :=
  [(⟨"parity.go"⟩, "package main\n\nvar b = func() bool \x7b return even(0) \x7d()\n\n" ++
    "func even(n int) bool \x7b return odd(n) \x7d\n\n" ++
    "func odd(n int) bool \x7b return even(n) \x7d\n\nfunc main() \x7b odd(3) \x7d\n")]

def parityRequest : Request := ⟨"depth", "int", "parity.go:#70", true⟩

theorem plan_exact_parity : ∃ p d, Program.ofSources (fun _ => none) paritySources = .ok p ∧
    (Scope.ofProgram p).hasRoots = true ∧ p.Selects (fun _ => none) parityRequest.position d ∧
    ∃ frontier, plan p (fun _ => none) parityRequest = .ok frontier ∧
      frontier.ExactFor p (.build p (Scope.ofProgram p)) d := by
  have hchecked : (Program.ofSources (fun _ => none) paritySources).toOption.any (fun p =>
      (Scope.ofProgram p).hasRoots && p.selects (fun _ => none) parityRequest.position) = true := by
    decide +kernel
  obtain ⟨p, hp, hchecked⟩ := any_toOption.mp hchecked
  obtain ⟨hroots, hselects⟩ := Bool.and_eq_true_iff.mp hchecked
  obtain ⟨d, hd⟩ := Program.exists_selects hselects
  exact ⟨p, d, hp, hroots, hd, plan_exact (.sources hp) hroots hd⟩

end ParamThreading
