import Mathlib.Data.List.Sort
import Mathlib.Data.Prod.Lex
import ParamThreading.Proofs.PlanExact
import ParamThreading.Proofs.ResolvedCalls

/-!
# The answers to who calls a function

They hold each call that is reached from the start once, in the order of the text, and do not depend
on the order of the edges.

* `CallGraph.callersOf_perm`  the calls of a function in another order of the edges;
* `Program.Writes`  the functions in the text of a program;
* `CallGraph.Reports`, `CallGraph.AnswersFor`  what an answer says;
* `CallGraph.incoming_exact`  the answer for any function of a program.
-/

namespace ParamThreading

open Rule Grammar

/-! ## keys in order -/

namespace Key

variable {a b c : Key}

def pair (a : Key) : Nat ×ₗ Nat := toLex (a.file, a.offset)

theorem le_iff : a.le b = true ↔ a.pair ≤ b.pair := by
  simp [le, pair, Prod.Lex.toLex_le_toLex]

theorem pair_injective : Function.Injective pair := by
  intro a b h
  obtain ⟨file, offset⟩ := a
  obtain ⟨file', offset'⟩ := b
  cases toLex.injective h
  rfl

theorem eq_of_le_of_le (hab : a.le b = true) (hba : b.le a = true) : a = b :=
  pair_injective (le_antisymm (le_iff.mp hab) (le_iff.mp hba))

end Key

def CallEdge.le (x y : CallEdge) : Bool := x.site.callKey.le y.site.callKey

section
variable {l l' : List CallEdge}

theorem CallEdge.le_trans (x y z : CallEdge) (hxy : x.le y = true) (hyz : y.le z = true) :
    x.le z = true :=
  Key.le_iff.mpr ((Key.le_iff.mp hxy).trans (Key.le_iff.mp hyz))

theorem CallEdge.le_total (x y : CallEdge) : (x.le y || y.le x) = true :=
  Bool.or_eq_true_iff.mpr
    ((total_of (· ≤ ·) x.site.callKey.pair y.site.callKey.pair).imp Key.le_iff.mpr Key.le_iff.mpr)

theorem pairwise_mergeSort_edges (l : List CallEdge) :
    (l.mergeSort CallEdge.le).Pairwise fun x y => x.le y = true :=
  List.pairwise_mergeSort CallEdge.le_trans CallEdge.le_total l

theorem mergeSort_strict (h : l.Pairwise fun x y => x.site.callKey ≠ y.site.callKey) :
    (l.mergeSort CallEdge.le).Pairwise fun x y =>
      x.site.callKey.le y.site.callKey = true ∧ x.site.callKey ≠ y.site.callKey := by
  have hapart : (l.mergeSort CallEdge.le).Pairwise fun x y => x.site.callKey ≠ y.site.callKey := by
    refine (List.Perm.pairwise_iff ?_ (List.mergeSort_perm l CallEdge.le)).mpr h
    intro x y hxy
    exact hxy.symm
  exact (pairwise_mergeSort_edges l).and hapart

theorem mergeSort_eq_of_perm (h : l.Pairwise fun x y => x.site.callKey ≠ y.site.callKey)
    (hperm : l'.Perm l) : l'.mergeSort CallEdge.le = l.mergeSort CallEdge.le := by
  refine mergeSort_eq_of_antisymm CallEdge.le_trans CallEdge.le_total (fun x hx y hy hxy hyx => ?_)
    hperm
  by_contra hne
  have hsymm : Std.Symm fun x y : CallEdge => x.site.callKey ≠ y.site.callKey :=
    ⟨fun _ _ h => h.symm⟩
  exact h.forall hx hy hne (Key.eq_of_le_of_le hxy hyx)

end

/-! ## calls and their sites -/

theorem Program.HoldsCode.eq_of_mem {p : Program} (hp : p.WellFormed) {file : FileId}
    {d d' n : Node} (h : p.HoldsCode file d) (h' : p.HoldsCode file d') (hn : n ∈ d.everything)
    (hn' : n ∈ d'.everything) (hsolid : n.kind.isSolid = true) : d = d' := by
  by_contra hne
  have htree := hp.tree _ (Program.file_mem h.loaded)
  have hneat := htree.neat d h.child
  have hneat' := htree.neat d' h'.child
  have hlt : n.start < n.stop := (hneat.of_mem hn).self.filled hsolid
  rcases Node.before_or_before htree.ordered h.child h'.child hne with hb | hb
  · have := Node.start_lt_of_before hb h'.named hneat hneat' hn hlt hn'
    omega
  · have := Node.start_lt_of_before hb h.named hneat' hneat hn' hlt hn
    omega

namespace CallGraph

variable {p : Program} {scope : Scope} {site site' : CallSite} {e e' : Edge} {i i' : Item}

theorem caller_unique (hp : p.WellFormed) {caller caller' callee callee' : FunctionId}
    (h : (⟨caller, callee, some site⟩ : Edge) ∈ (build p scope).edges)
    (h' : (⟨caller', callee', some site⟩ : Edge) ∈ (build p scope).edges) : caller = caller' := by
  obtain ⟨d, bs, above, hscan, hpath, hcall, -, hruns⟩ := (mem_sited hp).mp h
  obtain ⟨d', bs', above', hscan', hpath', -, -, hruns'⟩ := (mem_sited hp).mp h'
  have hd := hscan.holdsCode hp
  have hsolid : site.node.kind.isSolid = true := by rw [hcall]; rfl
  have hmem := hpath.mem_everything _ List.mem_cons_self
  have hmem' := hpath'.mem_everything _ List.mem_cons_self
  cases hd.eq_of_mem hp (hscan'.holdsCode hp) hmem hmem' hsolid
  have hneat := (hp.tree _ (Program.file_mem hd.loaded)).neat d hd.child
  cases Node.Path.unique hneat hsolid hpath hpath'
  exact hruns.unique hp hruns'

theorem SiteOf.eq_of_callKey (hp : p.WellFormed) (h : SiteOf p e site i) (h' : SiteOf p e' site' i')
    {a a' : Address} (ha : AddressOf site a) (ha' : AddressOf site' a')
    (hkey : a.callKey = a'.callKey) :
    site = site' := by
  obtain ⟨-, ⟨f, args, hshape⟩, -⟩ := resolveRange_site hp h
  obtain ⟨-, ⟨f', args', hshape'⟩, -⟩ := resolveRange_site hp h'
  have hargs := hshape.child_arguments
  have hargs' := hshape'.child_arguments
  rw [ha.callKey hargs, ha'.callKey hargs', Key.mk.injEq] at hkey
  exact h.eq_of_arguments hp h' hargs hargs' hkey.1 hkey.2

/-! ## the same edges in another order -/

theorem leads_of_perm {edges edges' : List Edge} (h : edges'.Perm edges) :
    Leads edges' = Leads edges := by
  funext f g
  simp only [Leads, h.mem_iff]

theorem callersOf_perm {g : CallGraph} {edges edges' : List Edge} (h : edges'.Perm edges)
    (f : FunctionId) :
    ((g.withEdges edges').callersOf f).Perm ((g.withEdges edges).callersOf f) := by
  have hreach : ∀ f, (g.withEdges edges').isReachable f = (g.withEdges edges).isReachable f := by
    intro f
    rw [Bool.eq_iff_iff, isReachable_withEdges, isReachable_withEdges, leads_of_perm h]
  unfold callersOf
  simp only [hreach]
  exact h.filterMap _

/-! ## answers -/

/-- A call of a function is answered: it is reached from the start, by a caller that stands for
code, and the answer has its exact address and tells whether it stands in a declaration. -/
structure Reports (g : CallGraph) (p : Program) (f : FunctionId) (site : CallSite) (e : CallEdge) :
    Prop where
  edge : (⟨e.caller, f, some site⟩ : Edge) ∈ g.edges
  reached : Relation.ReflTransGen (Leads g.edges) rootFunction e.caller
  coded : e.caller ≠ rootFunction ∧ e.caller ≠ testFunction
  callee : e.callee = f
  address : AddressOf site e.site
  exact : e.site.exact = true ∧ e.site.start = site.node.start ∧ e.site.stop = site.node.stop
  callerKind : e.callerKind = .function ↔ ∃ d, p.Encloses d site

def answerTo (g : CallGraph) (p : Program) (f : FunctionId) (call : FunctionId × CallSite) :
    CallEdge :=
  (g.callEdge p f call).toOption.getD default

theorem encloses_iff (hp : p.WellFormed) (hi : SiteOf p e site i) :
    (∃ d, p.Encloses d site) ↔ i.isFunction = true := by
  constructor
  · rintro ⟨d, hd⟩
    exact (hd.eq_item hp hi).1
  · intro hfun
    obtain ⟨ps, hpath⟩ := hi.path
    refine ⟨⟨site.file, i.node⟩, ⟨?_, ?_, ?_⟩, rfl, hpath.mem_everything _ List.mem_cons_self⟩
    · rw [hi.inFile]; exact hi.item.file
    · rw [hi.inFile]; exact hi.item.child
    · rw [← hi.item.isFunction]; exact hfun

/-- Every call of a function that is reached from the start is answered. -/
theorem callEdge_reports (hp : p.WellFormed) {f caller : FunctionId}
    (hcall : (caller, site) ∈ (build p scope).callersOf f) :
    (build p scope).callEdge p f (caller, site) =
      .ok ((build p scope).answerTo p f (caller, site)) ∧
      ((build p scope).answerTo p f (caller, site)).caller = caller ∧
      (build p scope).Reports p f site ((build p scope).answerTo p f (caller, site)) := by
  obtain ⟨hreach, hedge⟩ := (mem_callersOf hp).mp hcall
  obtain ⟨i, hi⟩ := siteOf_edge hp hedge rfl
  obtain ⟨ps, hpath⟩ := hi.path
  obtain ⟨-, -, hresolve⟩ := hi.item.resolveRange_call hp hpath hi.call
  rw [← hi.inFile] at hresolve
  have hok : (build p scope).callEdge p f (caller, site) =
      .ok ⟨caller, .ofFunction ((build p scope).kind caller), f, _⟩ :=
    bind_eq_ok.mpr ⟨_, hresolve, rfl⟩
  unfold answerTo
  rw [hok]
  refine ⟨rfl, rfl, hedge, hreach, ?_, rfl, ⟨rfl, rfl, hi.call⟩, ⟨rfl, rfl, rfl⟩, ?_⟩
  · have hcoded : caller ≠ rootFunction ∧ caller ≠ testFunction := by
      simpa [isSynthetic] using hi.caller.synthetic
    exact hcoded
  · obtain ⟨fn, hfn, hkind⟩ := hi.caller.kind
    have hcaller : (build p scope).kind caller = fn.kind := by
      rw [kind, functions_build, hfn]
      rfl
    rw [encloses_iff hp hi]
    show CallerKind.ofFunction ((build p scope).kind caller) = .function ↔ _
    rw [hcaller]
    exact hkind

theorem edge_of_caller {f : FunctionId} {call : FunctionId × CallSite} {g : CallGraph}
    (h : (if e.callee == f && g.isReachable e.caller && !isSynthetic e.caller then
      e.site.map fun site => (e.caller, site) else none) = some call) :
    e = ⟨call.1, f, some call.2⟩ := by
  split at h
  case isTrue hcond =>
    simp only [Bool.and_eq_true, beq_iff_eq] at hcond
    obtain ⟨site, hsite, rfl⟩ := Option.map_eq_some_iff.mp h
    obtain ⟨caller, callee, site'⟩ := e
    cases hsite
    cases hcond.1.1
    rfl
  case isFalse => cases h

theorem answers_apart (hp : p.WellFormed) (f : FunctionId) :
    (((build p scope).callersOf f).map ((build p scope).answerTo p f)).Pairwise
      fun x y => x.site.callKey ≠ y.site.callKey := by
  have hedges : (build p scope).edges.Pairwise fun x y =>
      x.site.isSome = true → y.site.isSome = true → x ≠ y :=
    List.pairwise_filter.mp (@sited_nodup p scope hp)
  rw [List.pairwise_map]
  unfold callersOf
  rw [List.pairwise_filterMap]
  refine hedges.imp_of_mem fun {e e'} he he' hne x hx y hy hkey => ?_
  have hxmem : x ∈ (build p scope).callersOf f := List.mem_filterMap.mpr ⟨e, he, hx⟩
  have hymem : y ∈ (build p scope).callersOf f := List.mem_filterMap.mpr ⟨e', he', hy⟩
  have hex := edge_of_caller hx
  have hey := edge_of_caller hy
  obtain ⟨-, -, hxr⟩ := callEdge_reports hp hxmem
  obtain ⟨-, -, hyr⟩ := callEdge_reports hp hymem
  rw [hex] at he
  rw [hey] at he'
  obtain ⟨i, hi⟩ := siteOf_edge hp he rfl
  obtain ⟨i', hi'⟩ := siteOf_edge hp he' rfl
  have hsite : x.2 = y.2 := hi.eq_of_callKey hp hi' hxr.address hyr.address hkey
  rw [hsite] at he
  have hcaller : x.1 = y.1 := caller_unique hp he he'
  refine hne ?_ ?_ ?_
  · rw [hex]; rfl
  · rw [hey]; rfl
  · rw [hex, hey, hsite, hcaller]

theorem incoming_withEdges (hp : p.WellFormed) {a : Address} {f : FunctionId}
    (hf : (build p scope).functionAround p a = .ok f) {edges : List Edge}
    (hperm : edges.Perm (build p scope).edges) : ((build p scope).withEdges edges).incoming p a =
      .ok ((((build p scope).callersOf f).map ((build p scope).answerTo p f)).mergeSort
        CallEdge.le) := by
  have hcallers :
      (((build p scope).withEdges edges).callersOf f).Perm ((build p scope).callersOf f) :=
    callersOf_perm hperm f
  have hanswers : (((build p scope).withEdges edges).callersOf f).mapM
      ((build p scope).callEdge p f) =
      .ok ((((build p scope).withEdges edges).callersOf f).map ((build p scope).answerTo p f)) := by
    rw [mapM_eq_ok, List.forall₂_map_right_iff, List.forall₂_same]
    intro call hcall
    exact (callEdge_reports hp (hcallers.mem_iff.mp hcall)).1
  refine bind_eq_ok.mpr ⟨f, hf, bind_eq_ok.mpr ⟨_, hanswers, ?_⟩⟩
  exact congrArg Except.ok (mergeSort_eq_of_perm (answers_apart hp f) (hcallers.map _))

end CallGraph

/-- A function in the text of a file: a declaration at the top of it, or a literal in a declaration
that holds code. -/
inductive Program.Writes (p : Program) (file : FileId) (n : Node) : Prop where
  | declaration : p.Declares ⟨file, n⟩ → Writes p file n
  | literal {d : Node} : p.HoldsCode file d → n ∈ d.everything → n.kind = .funcLiteral →
      Writes p file n

namespace CallGraph

variable {p : Program} {scope : Scope}

theorem isFunctionOf_writes (hp : p.WellFormed) {file : FileId} {n : Node} (h : p.Writes file n) :
    n.isFunction = true ∧ ∃ f, (build p scope).IsFunctionOf f ⟨file, n⟩ := by
  unfold IsFunctionOf
  rw [functions_build]
  cases h with
  | declaration hd =>
    obtain ⟨f, hf, hfile, hnode, -⟩ := Program.declared_mem hp hd.file hd.child hd.isDeclaration
    obtain ⟨id, hid⟩ := List.getElem?_of_mem hf
    have hdecl : n.isDeclaration = true := hd.isDeclaration
    exact ⟨by simp [Node.isFunction, hdecl], id, f, hid, hfile, hnode⟩
  | @literal d hd hn hk =>
    have htree := hp.tree _ (Program.file_mem hd.loaded)
    obtain ⟨above, hpath⟩ := Node.exists_path (htree.made d hd.child) hn (by rw [hk]; rfl)
    have hi := (Program.mem_items_iff hp).mpr hd
    obtain ⟨id, -, hid⟩ := functionAt?_literal hp hi (hpath.mem_backward List.mem_cons_self) hk
    exact ⟨by simp [Node.isFunction, hk], id, _, hid, rfl, rfl⟩

theorem ofProgram_eq_ok {g : CallGraph} (h : ofProgram p = .ok g) :
    g = build p (Scope.ofProgram p) := by
  unfold ofProgram at h
  dsimp only at h
  split at h
  · cases h
    rfl
  · cases h

/-- The function around an address is that of the innermost function on its path. -/
theorem functionAround_eq (hp : p.WellFormed) {a : Address} {n : Node} {f : FunctionId}
    (hn : a.path.find? (·.isFunction) = some n) (hfunction : n.isFunction = true)
    (hf : (build p scope).IsFunctionOf f ⟨a.file, n⟩) :
    (build p scope).functionAround p a = .ok f := by
  obtain ⟨fn, hfn, hfile, hnode⟩ := hf
  rw [functions_build] at hfn
  simp [functionAround, hn, functionFor?, hfunction, functions_build,
    Program.functionAt?_eq hp hfn hfile hnode]

/-- The answer for a function holds each of its calls once, in the order of the text. -/
structure AnswersFor (g : CallGraph) (p : Program) (f : FunctionId) (answer : List CallEdge) :
    Prop where
  sound : ∀ e ∈ answer, ∃ site, g.Reports p f site e
  complete : ∀ caller site, (⟨caller, f, some site⟩ : Edge) ∈ g.edges →
    Relation.ReflTransGen (Leads g.edges) rootFunction caller →
      ∃ e ∈ answer, e.caller = caller ∧ g.Reports p f site e ∧
        ∀ e' ∈ answer, AddressOf site e'.site → e' = e
  ordered : answer.Pairwise fun x y =>
    x.site.callKey.le y.site.callKey = true ∧ x.site.callKey ≠ y.site.callKey

theorem answersFor_sorted (hp : p.WellFormed) (f : FunctionId) : (build p scope).AnswersFor p f
    ((((build p scope).callersOf f).map ((build p scope).answerTo p f)).mergeSort CallEdge.le) := by
  have hordered := mergeSort_strict (@answers_apart p scope hp f)
  refine ⟨fun e he => ?_, fun caller site hedge hreach => ?_, hordered⟩
  · obtain ⟨call, hcall, rfl⟩ := List.mem_map.mp (List.mem_mergeSort.mp he)
    exact ⟨call.2, (callEdge_reports hp hcall).2.2⟩
  · have hcall := (mem_callersOf hp).mpr ⟨hreach, hedge⟩
    obtain ⟨-, hcaller, hreports⟩ := callEdge_reports hp hcall
    have hmem : (build p scope).answerTo p f (caller, site) ∈
        (((build p scope).callersOf f).map ((build p scope).answerTo p f)).mergeSort CallEdge.le :=
      List.mem_mergeSort.mpr (List.mem_map_of_mem hcall)
    refine ⟨_, hmem, hcaller, hreports, fun e' he' haddress => ?_⟩
    obtain ⟨i, hi⟩ := siteOf_edge hp hedge rfl
    obtain ⟨-, ⟨f', args, hshape⟩, -⟩ := resolveRange_site hp hi
    have hkey := (haddress.callKey hshape.child_arguments).trans
      (hreports.address.callKey hshape.child_arguments).symm
    have hsymm : Std.Symm fun x y : CallEdge => x.site.callKey ≠ y.site.callKey :=
      ⟨fun _ _ h => h.symm⟩
    by_contra hne
    exact (hordered.imp And.right).forall he' hmem hne hkey

/-- The calls of a function are answered at every address in it: each call that is reached from the
start once, in the order of the text and whatever the order of the edges is. -/
theorem incoming_exact {g : CallGraph} (hloaded : p.Loaded) (hg : ofProgram p = .ok g) {a : Address}
    {n : Node} (hn : a.path.find? (·.isFunction) = some n) (hwrites : p.Writes a.file n) :
    ∃ f answer, g.IsFunctionOf f ⟨a.file, n⟩ ∧ g.incoming p a = .ok answer ∧
      g.AnswersFor p f answer ∧ ∀ edges, edges.Perm g.edges →
        (g.withEdges edges).incoming p a = .ok answer := by
  have hp := hloaded.wellFormed
  cases ofProgram_eq_ok hg
  obtain ⟨hfunction, f, hf⟩ := @isFunctionOf_writes p (Scope.ofProgram p) hp a.file n hwrites
  have haround := functionAround_eq hp hn hfunction hf
  exact ⟨f, _, hf, incoming_withEdges hp haround (.refl _), answersFor_sorted hp f,
    fun edges hperm => incoming_withEdges hp haround hperm⟩

def twiceSources : List (Path × String) :=
  [(⟨"twice.go"⟩, "package main\n\nfunc main() \x7b main(main()) \x7d\n")]

def topAddress (p : Program) (d : Node) : Address := .ofNode 0 d [(p.file 0).tree]

theorem incoming_exact_twice : ∃ p g d f answer,
    Program.ofSources (fun _ => none) twiceSources = .ok p ∧ ofProgram p = .ok g ∧
    p.Declares ⟨0, d⟩ ∧ g.IsFunctionOf f ⟨0, d⟩ ∧ (g.callersOf f).length = 2 ∧
    g.incoming p (topAddress p d) = .ok answer ∧ g.AnswersFor p f answer := by
  have hchecked : (Program.ofSources (fun _ => none) twiceSources).toOption.any (fun p =>
      (ofProgram p).toOption.any fun g => decide (0 < p.files.length) &&
        (p.file 0).tree.children.any fun d => d.isDeclaration &&
          (g.functionAround p (topAddress p d)).toOption.any fun f =>
            (g.callersOf f).length == 2) = true := by
    decide +kernel
  obtain ⟨p, hp, hchecked⟩ := any_toOption.mp hchecked
  obtain ⟨g, hg, hchecked⟩ := any_toOption.mp hchecked
  obtain ⟨hfile, hchecked⟩ := Bool.and_eq_true_iff.mp hchecked
  obtain ⟨d, hd, hchecked⟩ := List.any_eq_true.mp hchecked
  obtain ⟨hdecl, hchecked⟩ := Bool.and_eq_true_iff.mp hchecked
  obtain ⟨f', hf', hlength⟩ := any_toOption.mp hchecked
  have hdeclares : p.Declares ⟨0, d⟩ := ⟨of_decide_eq_true hfile, hd, hdecl⟩
  have hfunction : d.isFunction = true := by simp [Node.isFunction, hdecl]
  have hpath : (topAddress p d).path.find? (·.isFunction) = some d := by
    simp [topAddress, Address.ofNode, hfunction]
  obtain ⟨f, answer, hf, hanswer, hanswers, -⟩ :=
    incoming_exact (.sources hp) hg hpath (.declaration hdeclares)
  have haround : g.functionAround p (topAddress p d) = .ok f := by
    cases ofProgram_eq_ok hg
    exact functionAround_eq (Program.Loaded.sources hp).wellFormed hpath hfunction hf
  cases hf'.symm.trans haround
  exact ⟨p, g, d, _, answer, hp, hg, hdeclares, hf, beq_iff_eq.mp hlength, hanswer, hanswers⟩

end CallGraph

end ParamThreading
