import Mathlib.Data.String.Basic
import ParamThreading.Proofs.ArgumentPlacement
import ParamThreading.Proofs.PlanExact

/-!
# Requests with nothing left to do

When a request has nothing left to do. A run that leaves alone what is in place records no insertion
just if the program carries the parameter throughout: it begins all parameter lists, and the
argument stands in all calls where the edit looks for it. Where it looks depends on the arguments,
also on one that was put there before, so that a run on the output of another one is not always
without effect.

* `Program.Carries`  a program in which a parameter is threaded;
* `Applied.foldl_take`  a list of edits that are made unless they are found in place;
* `apply_empty_iff`  when a request records nothing;
* `editsWithin`  the edits of a request on a single source, as far as they can be evaluated.
-/

namespace ParamThreading

/-! ## what is in place -/

def Declaration.HasParameter (p : Program) (d : Declaration) (name type : String) : Prop :=
  ∃ params first t, d.node.child? .parameters = some params ∧
    params.codeChildren.head? = some first ∧
    firstParameter? (p.file d.file).text first = some (name, t) ∧ sameType t type = true

def CallSite.HasArgument (p : Program) (site : CallSite) (name : String) : Prop :=
  ∃ list given, site.node.child? .arguments = some list ∧
    (p.argumentPlace site.file site.node list).2 = some given ∧ given.kind = .identifier ∧
    given.text (p.file site.file).text = name

/-- A parameter is threaded from a declaration: all that has to change together has it. -/
structure Program.Carries (p : Program) (g : CallGraph) (d : Declaration) (name type : String) :
    Prop where
  parameters : ∀ d', p.Threaded g d d' → d'.HasParameter p name type
  arguments : ∀ d' caller site, p.Threaded g d d' → g.Calls caller site d' → site.HasArgument p name

/-! ## edits one after the other -/

/-- An edit that is made unless it is found in place. -/
def Settles (edit : Edits → Except Failure (Outcome × Edits)) (inPlace : Edits → Bool) : Prop :=
  ∀ e, ∃ file i, edit e =
    .ok (if inPlace e = true then (.alreadyPresent, e) else (.applied, e.push file i))

/-- A list of such edits passes no target over, and it changes nothing just if all are in place from
the beginning. -/
theorem Applied.foldl_take {α : Type} {edit : α → Edits → Except Failure (Outcome × Edits)}
    {inPlace : α → Edits → Bool} {xs : List α} (h : ∀ x ∈ xs, Settles (edit x) (inPlace x))
    (acc : Applied) :
    (xs.foldl (fun acc x => acc.take (edit x acc.edits)) acc).skipped = acc.skipped ∧
    ((xs.foldl (fun acc x => acc.take (edit x acc.edits)) acc).edits = .empty ↔
      acc.edits = .empty ∧ ∀ x ∈ xs, inPlace x .empty = true) := by
  induction xs generalizing acc with
  | nil => simp
  | cons x xs ih =>
    obtain ⟨file, i, hedit⟩ := h x List.mem_cons_self acc.edits
    have hrest := fun y hy => h y (List.mem_cons_of_mem x hy)
    rw [List.foldl_cons, hedit]
    by_cases hin : inPlace x acc.edits = true
    · rw [if_pos hin]
      obtain ⟨hskipped, hempty⟩ := ih hrest acc
      refine ⟨hskipped, hempty.trans ⟨fun ⟨he, hxs⟩ => ⟨he, ?_⟩, fun ⟨he, hxs⟩ => ⟨he, ?_⟩⟩⟩
      · rw [he] at hin
        exact List.forall_mem_cons.mpr ⟨hin, hxs⟩
      · exact (List.forall_mem_cons.mp hxs).2
    · rw [if_neg hin]
      obtain ⟨hskipped, hempty⟩ := ih hrest ⟨acc.edits.push file i, acc.skipped⟩
      refine ⟨hskipped, hempty.trans ⟨fun ⟨he, _⟩ => ?_, fun ⟨he, hxs⟩ => ?_⟩⟩
      · simp [Edits.push, Edits.empty] at he
      · rw [he] at hin
        exact absurd (hxs x List.mem_cons_self) hin

/-! ## the targets of a request -/

section
variable {p : Program} {name type : String}

def signatureInPlace (p : Program) (name type : String) (a : Address) (e : Edits) : Bool :=
  a.node?.any fun list =>
    e.hasParameter (p.file a.file).text a.file (list.start + 1) list.codeChildren name type

/-- The call at an address has the argument in its place, in the text or by an insertion. -/
def callInPlace (p : Program) (name : String) (a : Address) (e : Edits) : Bool :=
  a.node?.any fun call => (call.child? .arguments).any fun list =>
    e.hasArgument (p.file a.file).text a.file (p.argumentPlace a.file call list).1
      (p.argumentPlace a.file call list).2 name

theorem Edits.putParameter_eq (e : Edits) (p : Program) (file : FileId) (list : Node)
    (name type : String) : ∃ inserted, ∀ skip, e.putParameter p file list name type skip =
      if skip && e.hasParameter (p.file file).text file (list.start + 1) list.codeChildren name type
      then (.alreadyPresent, e)
      else (.applied, e.push file ⟨list.start + 1, .parameter name type, inserted⟩) :=
  ⟨_, fun _ => rfl⟩

theorem settles_addParameter {d : Declaration} {a : Address} (ha : Signs p d a) :
    Settles (fun e => e.addParameter p a name type true) (signatureInPlace p name type a) := by
  obtain ⟨params, hshape, rfl⟩ := ha
  have hkind : (Address.ofNode d.file params [d.node, (p.file d.file).tree]).expectKind p
      .parameterList = .ok params := by
    rw [Address.expectKind]
    exact if_pos hshape.list
  intro e
  obtain ⟨inserted, hput⟩ := e.putParameter_eq p d.file params name type
  exact ⟨d.file, _, bind_eq_ok.mpr ⟨params, hkind, congrArg Except.ok (hput true)⟩⟩

theorem settles_addArgument {site : CallSite} {a : Address} {list : Node} (ha : AddressOf site a)
    (hlist : site.node.child? .arguments = some list) :
    Settles (fun e => e.addArgument p a name true) (callInPlace p name a) := by
  intro e
  obtain ⟨inserted, hadd⟩ := @Edits.addArgument_eq e p a site.node list name ha.node ha.call hlist
  have hin : callInPlace p name a e = e.hasArgument (p.file a.file).text a.file
      (p.argumentPlace a.file site.node list).1 (p.argumentPlace a.file site.node list).2 name := by
    rw [callInPlace, ha.node, Option.any_some, hlist, Option.any_some]
  rw [hin]
  exact ⟨a.file, _, hadd true⟩

theorem signatureInPlace_empty {d : Declaration} {a : Address} (ha : Signs p d a) :
    signatureInPlace p name type a .empty = true ↔ d.HasParameter p name type := by
  obtain ⟨params, hshape, rfl⟩ := ha
  show (params.codeChildren.head?.bind (firstParameter? (p.file d.file).text)).any
    (fun x => x.1 == name && sameType x.2 type) = true ↔ _
  simp only [Option.any_eq_true, Option.bind_eq_some_iff, Bool.and_eq_true, beq_iff_eq]
  constructor
  · rintro ⟨⟨_, t⟩, ⟨first, hfirst, hparameter⟩, rfl, htype⟩
    exact ⟨params, first, t, hshape.parameters, hfirst, hparameter, htype⟩
  · rintro ⟨params', first, t, hparams, hfirst, hparameter, htype⟩
    cases hshape.parameters.symm.trans hparams
    exact ⟨(name, t), ⟨first, hfirst, hparameter⟩, rfl, htype⟩

theorem callInPlace_empty {site : CallSite} {a : Address} (ha : AddressOf site a) :
    callInPlace p name a .empty = true ↔ site.HasArgument p name := by
  unfold callInPlace
  rw [ha.node, ha.file, Option.any_some]
  simp only [Option.any_eq_true]
  refine exists_congr fun list => ?_
  show _ ∧ (p.argumentPlace site.file site.node list).2.any (fun n => n.kind == .identifier &&
    n.text (p.file site.file).text == name) = true ↔ _
  simp only [Option.any_eq_true, Bool.and_eq_true, beq_iff_eq, exists_and_left]

/-- A request that leaves alone what is in place passes no target of a frontier over, and it records
nothing just if all targets are in place. -/
theorem apply_targets {frontier : Frontier} {request : Request}
    (hskip : request.skipIfPresent = true)
    (hsignatures : ∀ a ∈ frontier.signatures, ∃ d, Signs p d a)
    (hcalls : ∀ a ∈ frontier.callSites, ∃ site list, AddressOf site a ∧
      site.node.child? .arguments = some list) :
    (apply p frontier request).skipped = [] ∧
    ((apply p frontier request).edits = .empty ↔
      (∀ a ∈ frontier.signatures, signatureInPlace p request.name request.type a .empty = true) ∧
      (∀ a ∈ frontier.callSites, callInPlace p request.name a .empty = true)) := by
  have hparameters : ∀ a ∈ frontier.signatures,
      Settles (fun e => e.addParameter p a request.name request.type request.skipIfPresent)
        (signatureInPlace p request.name request.type a) := by
    intro a ha
    obtain ⟨d, ha⟩ := hsignatures a ha
    rw [hskip]
    exact settles_addParameter ha
  have harguments : ∀ a ∈ frontier.callSites,
      Settles (fun e => e.addArgument p a request.name request.skipIfPresent)
        (callInPlace p request.name a) := by
    intro a ha
    obtain ⟨site, list, ha, hlist⟩ := hcalls a ha
    rw [hskip]
    exact settles_addArgument ha hlist
  obtain ⟨hskipped, hempty⟩ := Applied.foldl_take hparameters ⟨.empty, []⟩
  obtain ⟨hskipped', hempty'⟩ :=
    Applied.foldl_take harguments (frontier.signatures.foldl
      (fun acc a =>
        acc.take (acc.edits.addParameter p a request.name request.type request.skipIfPresent))
      ⟨.empty, []⟩)
  refine ⟨hskipped'.trans hskipped, hempty'.trans ?_⟩
  rw [hempty]
  simp

theorem Frontier.Holds.site {frontier : Frontier} {scope : Scope} {d : Declaration}
    (hp : p.WellFormed)
    (h : frontier.Holds p (.build p scope) d) {a : Address} (ha : a ∈ frontier.callSites) :
    ∃ d' caller site list, p.Threaded (.build p scope) d d' ∧
      (CallGraph.build p scope).Calls caller site d' ∧ site.node.child? .arguments = some list ∧
      AddressOf site a := by
  obtain ⟨d', caller, site, hd', hcalls, ha⟩ := h.callSites a ha
  obtain ⟨a', list, ha', hlist, haddress⟩ := hcalls.address hp
  cases ha.symm.trans ha'
  exact ⟨d', caller, site, list, hd', hcalls, hlist, haddress⟩

theorem Frontier.Holds.exists_signs {frontier : Frontier} {scope : Scope} {d d' : Declaration}
    (hp : p.WellFormed) (hd : p.Declares d) (h : frontier.Holds p (.build p scope) d)
    (hd' : p.Threaded (.build p scope) d d') : ∃ a ∈ frontier.signatures, Signs p d' a := by
  obtain ⟨a, ha⟩ := (hd'.declares hd).exists_signs hp
  obtain ⟨b, hb, hkey⟩ := List.mem_map.mp (h.signatureKeys d' hd' a ha)
  obtain ⟨d'', hd'', hb'⟩ := h.signatures b hb
  cases hb'.eq_of_key hp (hd''.declares hd) (hd'.declares hd) ha hkey
  exact ⟨b, hb, hb'⟩

/-- The targets of such a frontier are in place just if the parameter is threaded. -/
theorem Frontier.Holds.inPlace_iff {frontier : Frontier} {scope : Scope} {d : Declaration}
    (hp : p.WellFormed) (hd : p.Declares d) (h : frontier.Holds p (.build p scope) d) :
    ((∀ a ∈ frontier.signatures, signatureInPlace p name type a .empty = true) ∧
      (∀ a ∈ frontier.callSites, callInPlace p name a .empty = true)) ↔
    p.Carries (.build p scope) d name type := by
  constructor
  · rintro ⟨hsignatures, hcallSites⟩
    constructor
    · intro d' hd'
      obtain ⟨a, ha, hsigns⟩ := h.exists_signs hp hd hd'
      exact (signatureInPlace_empty hsigns).mp (hsignatures a ha)
    · intro d' caller site hd' hcalls
      obtain ⟨a, list, ha, hlist, haddress⟩ := hcalls.address hp
      obtain ⟨b, hb, hkey⟩ := List.mem_map.mp (h.callKeys d' caller site hd' hcalls a ha)
      obtain ⟨_, _, site', list', -, hcalls', hlist', haddress'⟩ := h.site hp hb
      rw [haddress.callKey hlist, haddress'.callKey hlist'] at hkey
      cases hcalls'.eq_of_arguments hp hcalls hlist' hlist (congrArg Key.file hkey)
        (congrArg Key.offset hkey)
      exact (callInPlace_empty haddress').mp (hcallSites b hb)
  · intro hcarries
    constructor
    · intro a ha
      obtain ⟨d', hd', ha⟩ := h.signatures a ha
      exact (signatureInPlace_empty ha).mpr (hcarries.parameters d' hd')
    · intro a ha
      obtain ⟨d', caller, site, list, hd', hcalls, -, haddress⟩ := h.site hp ha
      exact (callInPlace_empty haddress).mpr (hcarries.arguments d' caller site hd' hcalls)

end

/-! ## requests with nothing to do -/

theorem Edits.render_empty (p : Program) (file : FileId) :
    Edits.empty.render p file = (p.file file).text := by
  show splice (p.file file).text 0 (ordered []) = _
  simp only [ordered, List.reverse_nil, List.mergeSort_nil, splice]
  exact String.extract_zero_rawEndPos _

/-- A request from a position in a declaration, which leaves alone what is in place, finds all its
targets. It records no insertion just if the parameter is threaded through the program already. -/
theorem apply_empty_iff {program : Program} {onDisk : Path → Option Path} {request : Request}
    {d : Declaration} (hloaded : program.Loaded)
    (hroots : (Scope.ofProgram program).hasRoots = true)
    (hd : program.Selects onDisk request.position d) (hskip : request.skipIfPresent = true) :
    ∃ frontier, plan program onDisk request = .ok frontier ∧
      (apply program frontier request).skipped = [] ∧
      ((apply program frontier request).edits = .empty ↔
        program.Carries (.build program (Scope.ofProgram program)) d request.name
          request.type) := by
  have hp := hloaded.wellFormed
  obtain ⟨s, hsigns, hplan⟩ := plan_eq hp hroots hd
  have hholds := @propagate_holds program (Scope.ofProgram program) d s hp hd.declares hsigns
  have hsignatures := fun a ha => (hholds.signatures a ha).imp fun _ h => h.2
  have hcallSites : ∀ a ∈ _, ∃ site list, AddressOf site a ∧
      site.node.child? .arguments = some list := fun a ha => by
    obtain ⟨_, _, site, list, -, -, hlist, haddress⟩ := hholds.site hp ha
    exact ⟨site, list, haddress, hlist⟩
  obtain ⟨hskipped, hempty⟩ := apply_targets hskip hsignatures hcallSites
  exact ⟨_, hplan, hskipped, hempty.trans (hholds.inPlace_iff hp hd.declares)⟩

/-! ## requests on a single source -/

def Walk.runFor (program : Program) (query : CallerQuery) : Nat → Walk → Walk
  | 0, w => w
  | turns + 1, w =>
    match w.next program query with
    | none => w
    | some w => w.runFor program query turns

theorem Walk.run_eq_runFor {program : Program} {query : CallerQuery} {turns : Nat} {w : Walk}
    (h : (w.runFor program query turns).next program query = none) :
    w.run program query = w.runFor program query turns := by
  induction turns generalizing w with
  | zero => exact Walk.run_of_none h
  | succ turns ih =>
    rw [Walk.runFor] at h ⊢
    cases hn : w.next program query with
    | none => exact Walk.run_of_none hn
    | some w' =>
      rw [hn] at h
      rw [Walk.run_of_some hn]
      exact ih h

/-- The frontier of a request, if the walk is over after a number of turns. -/
def planWithin (turns : Nat) (program : Program) (onDisk : Path → Option Path) (request : Request) :
    Except Failure (Option Frontier) := do
  let selected ← resolve program onDisk request.position false
  let start ← signatureOf program selected
  let graph ← CallGraph.ofProgram program
  let walk := Walk.runFor program (graph.incoming program) turns ⟨.seeded start, [], [start], none⟩
  return if (walk.next program (graph.incoming program)).isNone && walk.failure.isNone
    then some walk.frontier else none

theorem plan_of_planWithin {turns : Nat} {program : Program} {onDisk : Path → Option Path}
    {request : Request} {frontier : Frontier}
    (h : planWithin turns program onDisk request = .ok (some frontier)) :
    plan program onDisk request = .ok frontier := by
  obtain ⟨selected, hselected, h⟩ := bind_eq_ok.mp h
  obtain ⟨start, hstart, h⟩ := bind_eq_ok.mp h
  obtain ⟨graph, hgraph, h⟩ := bind_eq_ok.mp h
  obtain ⟨hover, hfrontier⟩ := Option.ite_none_right_eq_some.mp (Except.ok.inj h)
  simp only [Bool.and_eq_true, Option.isNone_iff_eq_none] at hover
  refine bind_eq_ok.mpr ⟨selected, hselected, bind_eq_ok.mpr ⟨start, hstart, bind_eq_ok.mpr
    ⟨graph, hgraph, ?_⟩⟩⟩
  dsimp only [propagate, propagateInto]
  rw [Walk.run_eq_runFor hover.1, hover.2, Option.some.inj hfrontier]
  rfl

/-- The edits of a request on a source, if its position lies in a declaration, the walk is over
after a number of turns and there is no other file. -/
def editsWithin (turns : Nat) (path : Path) (text : String) (request : Request) : Option Edits :=
  match Program.ofSources (fun _ => none) [(path, text)] with
  | .error _ => none
  | .ok p => match planWithin turns p (fun _ => none) request with
    | .ok (some frontier) =>
      if (Scope.ofProgram p).hasRoots && p.selects (fun _ => none) request.position &&
        p.files.map (fun f => (f.path, f.text)) == [(path, text)]
      then some (apply p frontier request).edits else none
    | _ => none

theorem editsWithin_eq_some {turns : Nat} {path : Path} {text : String} {request : Request}
    {edits : Edits} (h : editsWithin turns path text request = some edits) :
    ∃ p d frontier, Program.ofSources (fun _ => none) [(path, text)] = .ok p ∧
      (Scope.ofProgram p).hasRoots = true ∧ p.Selects (fun _ => none) request.position d ∧
      plan p (fun _ => none) request = .ok frontier ∧ (apply p frontier request).edits = edits ∧
      (p.file 0).text = text := by
  unfold editsWithin at h
  split at h
  case h_1 => cases h
  case h_2 p hp =>
    split at h
    case h_1 frontier hplan =>
      obtain ⟨hchecked, hedits⟩ := Option.ite_none_right_eq_some.mp h
      simp only [Bool.and_eq_true, beq_iff_eq] at hchecked
      obtain ⟨⟨hroots, hselects⟩, hfiles⟩ := hchecked
      obtain ⟨d, hd⟩ := Program.exists_selects hselects
      obtain ⟨f, hf, hpath⟩ := List.map_eq_singleton_iff.mp hfiles
      cases hpath
      refine ⟨p, d, frontier, hp, hroots, hd, plan_of_planWithin hplan, Option.some.inj hedits, ?_⟩
      simp [Program.file, hf]
    case h_2 => cases h

/-- A local variable with the name of its type. -/
def shadowingText : String :=
  "package main\n\ntype T struct\x7b\x7d\n\nfunc (t T) M() \x7b\x7d\n\n" ++
    "func main() \x7b\n\tT := T\x7b\x7d\n\tT.M()\n\x7d\n"

/-- The same with a parameter threaded. -/
def shadowingThreaded : String :=
  "package main\n\ntype T struct\x7b\x7d\n\nfunc (t T) M(foo int) \x7b\x7d\n\n" ++
    "func main(foo int) \x7b\n\tT := T\x7b\x7d\n\tT.M(foo)\n\x7d\n"

def shadowingRequest : Request := ⟨"foo", "int", "main.go:#43", true⟩

def shadowingEdits : Edits :=
  ⟨[(0, ⟨44, .parameter "foo" "int", "foo int"⟩), (0, ⟨60, .parameter "foo" "int", "foo int"⟩),
    (0, ⟨79, .argument "foo", "foo"⟩)]⟩

-- The first run puts the argument in front, as it should. The second one takes it for a receiver
-- and puts another one behind it.
example : editsWithin 4 ⟨"main.go"⟩ shadowingText shadowingRequest = some shadowingEdits ∧
    Edits.splice shadowingText 0 (shadowingEdits.insertions 0) = shadowingThreaded ∧
    editsWithin 4 ⟨"main.go"⟩ shadowingThreaded shadowingRequest =
      some ⟨[(0, ⟨96, .argument "foo", ", foo"⟩)]⟩ := by
  decide +kernel

end ParamThreading
