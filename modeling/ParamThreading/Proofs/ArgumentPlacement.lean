import ParamThreading.Edit.Element
import ParamThreading.Proofs.CallAnswers

/-!
# Where a call gets its new argument

A call of a method expression, such as `T.M(x)`, has the receiver as its first argument, and a new
argument has to stand behind it. The analysis of callees and the edit both ask whether a call is of
this form, but not in the same way: the edit looks at the callee as it is written, and it does not
ask whether the name of the type stands for a value.

* `Program.argumentPlace`, `Edits.addArgument_eq`  the place of a new argument;
* `Edits.addArgument_placement`  when that is behind the first argument, and when the analysis
  agrees.
-/

namespace ParamThreading

open Rule Grammar

/-- Where a call gets its new argument, and the argument that stands there now: behind the first one
if the callee is written as a method expression, and otherwise in front. -/
def Program.argumentPlace (p : Program) (file : FileId) (call list : Node) : Nat × Option Node :=
  match ((call.child? .function).bind (p.methodExpressionType? file)).isSome, list.codeChildren with
  | true, receiver :: rest => (receiver.stop, rest.head?)
  | _, given => (list.start + 1, given.head?)

namespace Edits

/-- A new argument for the call at an address goes to an offset: it is inserted there, unless it
stands there and need not be repeated. -/
def PutsArgument (e : Edits) (p : Program) (a : Address) (name : String) (offset : Nat)
    (next : Option Node) : Prop :=
  ∃ inserted, ∀ skip, e.addArgument p a name skip = .ok
    (if skip && e.hasArgument (p.file a.file).text a.file offset next name then (.alreadyPresent, e)
      else (.applied, e.push a.file ⟨offset, .argument name, inserted⟩))

theorem addArgument_call {e : Edits} {p : Program} {a : Address} {call list : Node}
    (ha : a.node? = some call) (hcall : call.kind = .callExpression)
    (hlist : call.child? .arguments = some list) (name : String) (skip : Bool) :
    e.addArgument p a name skip = .ok (e.putArgument p a.file call list name skip) := by
  have hkind : a.expectKind p .callExpression = .ok call := by
    rw [Address.expectKind, ha]
    exact if_pos hcall
  refine bind_eq_ok.mpr ⟨call, hkind, ?_⟩
  rw [hlist]
  rfl

theorem addArgument_eq {e : Edits} {p : Program} {a : Address} {call list : Node} {name : String}
    (ha : a.node? = some call) (hcall : call.kind = .callExpression)
    (hlist : call.child? .arguments = some list) :
    e.PutsArgument p a name (p.argumentPlace a.file call list).1
      (p.argumentPlace a.file call list).2 := by
  have hadd := addArgument_call (e := e) (p := p) ha hcall hlist name
  unfold PutsArgument Program.argumentPlace
  simp only [hadd]
  unfold putArgument
  cases ((call.child? .function).bind (p.methodExpressionType? a.file)).isSome with
  | false => exact ⟨_, fun _ => rfl⟩
  | true =>
    cases list.codeChildren with
    | nil => exact ⟨_, fun _ => rfl⟩
    | cons receiver rest => exact ⟨_, fun _ => rfl⟩

end Edits

/-! ## callees in parentheses -/

theorem Node.reach?_of_none {step : Node → Option Way} {n : Node} (h : step n = none) :
    n.reach? step = some n := by
  obtain ⟨k, r, a, b, cs⟩ := n
  rw [Node.reach?, h]

theorem Program.kind_of_methodExpressionType? {p : Program} {file : FileId} {n : Node}
    (h : (p.methodExpressionType? file n).isSome = true) : n.kind = .selectorExpression := by
  by_contra hk
  simp [methodExpressionType?, hk] at h

/-- The callee that is written is a method expression if it is the selector itself, without
parentheses, and that names a type. -/
theorem Program.callee_isMethodExpression {p : Program} {file : FileId} {call selector : Node}
    (h : (call.child? .function).bind (·.reach? Names.calledStep) = some selector) :
    ((call.child? .function).bind (p.methodExpressionType? file)).isSome = true ↔
      call.child? .function = some selector ∧
        (p.methodExpressionType? file selector).isSome = true := by
  cases hf : call.child? .function with
  | none => rw [hf] at h; cases h
  | some f =>
    rw [hf, Option.bind_some] at h
    rw [Option.bind_some]
    constructor
    · intro htype
      have hstep : Names.calledStep f = none := by
        rw [Names.calledStep, kind_of_methodExpressionType? htype]
        rfl
      cases (Node.reach?_of_none hstep).symm.trans h
      exact ⟨rfl, htype⟩
    · rintro ⟨hfs, htype⟩
      cases hfs
      exact htype

/-! ## agreement -/

/-- The analysis takes a selector that names a type for a method expression unless the name of the
type stands for a value. -/
theorem Names.isSome_methodExpression? {names : Names} {file : FileId} {bs : Bindings}
    {selector : Node} : (names.methodExpression? file bs selector).isSome = true ↔
      ∃ package type, names.program.methodExpressionType? file selector = some (package, type) ∧
        names.lookup file bs type = none := by
  unfold methodExpression?
  cases names.program.methodExpressionType? file selector with
  | none => simp
  | some found =>
    obtain ⟨package, type⟩ := found
    cases hlookup : names.lookup file bs type <;> simp [Option.filter, hlookup]

theorem CallShape.lt_stop_first {call f list first : Node} (h : CallShape call f list)
    (hneat : call.All Node.Neat) {among : Symbol → Prop} (hmade : call.All (Made rule among))
    (hfirst : first ∈ list.codeChildren) : list.start + 1 < first.stop := by
  obtain ⟨between, hc, -⟩ := h.children
  have hlist : list ∈ call.children := by rw [hc]; simp
  have hopened : isOpened list.kind = true := by rw [h.list]; rfl
  have hmem : first ∈ list.children := (List.mem_filter.mp hfirst).1
  have hsolid := (opened_begins (hmade.child hlist).self hopened).2 first hmem
  have h₁ := Node.start_lt_of_opened (hneat.child hlist) (hmade.child hlist).self hopened hfirst
    (Node.self_mem_everything first)
  have h₂ := ((hneat.child hlist).child hmem).self.filled hsolid
  omega

/-- The place of a new argument is behind the first one just if there is one and the callee is
written as a method expression. -/
theorem Program.argumentPlace_behind {p : Program} {file : FileId} {call list : Node}
    (h : ∀ first ∈ list.codeChildren, list.start + 1 < first.stop) :
    ((p.argumentPlace file call list).1 = list.start + 1 ∨
      list.codeChildren.head?.map Node.stop = some (p.argumentPlace file call list).1) ∧
    (list.codeChildren.head?.map Node.stop = some (p.argumentPlace file call list).1 ↔
      list.codeChildren ≠ [] ∧
        ((call.child? .function).bind (p.methodExpressionType? file)).isSome = true) := by
  unfold argumentPlace
  cases ((call.child? .function).bind (p.methodExpressionType? file)).isSome with
  | false =>
    refine ⟨.inl rfl, ?_⟩
    cases hgiven : list.codeChildren with
    | nil => simp
    | cons first rest =>
      have hlt := h first (by rw [hgiven]; exact List.mem_cons_self)
      simp
      omega
  | true =>
    cases hgiven : list.codeChildren with
    | nil => simp
    | cons first rest => simp

namespace Edits

/-- A call gets its new argument behind the first one just if there is one and the callee is written
without parentheses and names a type. So the edit agrees with the analysis of callees just if there
is no argument, or no type is named, or the callee has no parentheses while the name of the type
does not stand for a value, or has them while it does. -/
theorem addArgument_placement {program : Program} (hloaded : program.Loaded) {i : Item}
    {bs : Bindings} (hi : (i, bs) ∈ (Names.ofProgram program).2) {call callee : Node}
    (hmem : call ∈ i.node.everything) (hcall : call.kind = .callExpression)
    (hcallee : (call.child? .function).bind (·.reach? Names.calledStep) = some callee)
    (e : Edits) (name : String) :
    ∃ a list offset next, resolveRange program i.file call.start call.stop true = .ok a ∧
      call.child? .arguments = some list ∧ e.PutsArgument program a name offset next ∧
      (offset = list.start + 1 ∨ list.codeChildren.head?.map Node.stop = some offset) ∧
      (list.codeChildren.head?.map Node.stop = some offset ↔ list.codeChildren ≠ [] ∧
        call.child? .function = some callee ∧
        (program.methodExpressionType? i.file callee).isSome = true) ∧
      ((list.codeChildren.head?.map Node.stop = some offset ↔ list.codeChildren ≠ [] ∧
          ((Names.ofProgram program).1.methodExpression? i.file bs callee).isSome = true) ↔
        list.codeChildren = [] ∨
          ∀ package type, program.methodExpressionType? i.file callee = some (package, type) →
            (call.child? .function = some callee ↔
              (Names.ofProgram program).1.lookup i.file bs type = none)) := by
  have hp := hloaded.wellFormed
  have hi' : i ∈ program.items := by
    rw [← Names.items_ofProgram]
    exact List.mem_map_of_mem hi
  have hitem := Program.itemOf_mem hi'
  obtain ⟨hneat, hmade⟩ := hitem.tree hp
  obtain ⟨ps, hpath⟩ := Node.exists_path hmade hmem (by rw [hcall]; rfl)
  obtain ⟨⟨f, list, hshape⟩, -, hresolve⟩ := hitem.resolveRange_call hp hpath hcall
  have hlt : ∀ first ∈ list.codeChildren, list.start + 1 < first.stop := fun _ hfirst =>
    hshape.lt_stop_first (hneat.of_mem hmem) (hmade.of_mem hmem) hfirst
  obtain ⟨hplace, hbehind⟩ := @Program.argumentPlace_behind program i.file call list hlt
  rw [Program.callee_isMethodExpression hcallee] at hbehind
  refine ⟨_, list, _, _, hresolve, hshape.child_arguments,
    addArgument_eq rfl hcall hshape.child_arguments, hplace, hbehind, ?_⟩
  rw [hbehind, Names.isSome_methodExpression?, Names.program_ofProgram]
  cases htype : program.methodExpressionType? i.file callee with
  | none => simp
  | some found =>
    obtain ⟨package, type⟩ := found
    by_cases hgiven : list.codeChildren = []
    · simp [hgiven]
    · simp [hgiven]

def shadowedSources : List (Path × String) :=
  [(⟨"main.go"⟩, "package main\n\ntype T struct\x7b\x7d\n\nfunc (t T) M(n int) \x7b\x7d\n\n" ++
    "func main() \x7b\n\tT := T\x7b\x7d\n\tT.M(1)\n\x7d\n")]

/-- A call names a type by a callee without parentheses, and the analysis takes it for a value. -/
def isShadowed (p : Program) (i : Item) (bs : Bindings) (call : Node) : Bool :=
  call.kind = .callExpression && (call.child? .function).any (fun f =>
    Names.calledStep f = none && (p.methodExpressionType? i.file f).isSome &&
    ((Names.ofProgram p).1.methodExpression? i.file bs f).isNone) &&
  (call.child? .arguments).any (!·.codeChildren.isEmpty)

theorem addArgument_shadowed : ∃ p i bs call callee a list offset next,
    Program.ofSources (fun _ => none) shadowedSources = .ok p ∧
    (i, bs) ∈ (Names.ofProgram p).2 ∧ call ∈ i.node.everything ∧ call.kind = .callExpression ∧
    (call.child? .function).bind (·.reach? Names.calledStep) = some callee ∧
    resolveRange p i.file call.start call.stop true = .ok a ∧
    call.child? .arguments = some list ∧ Edits.empty.PutsArgument p a "foo" offset next ∧
    (Names.ofProgram p).1.methodExpression? i.file bs callee = none ∧
    list.codeChildren.head?.map Node.stop = some offset := by
  have hchecked : (Program.ofSources (fun _ => none) shadowedSources).toOption.any (fun p =>
      (Names.ofProgram p).2.any fun item =>
        item.1.node.everything.any (isShadowed p item.1 item.2)) = true := by decide +kernel
  obtain ⟨p, hp, hitems⟩ := any_toOption.mp hchecked
  obtain ⟨⟨i, bs⟩, hi, hany⟩ := List.any_eq_true.mp hitems
  obtain ⟨call, hmem, hshadowed⟩ := List.any_eq_true.mp hany
  simp only [isShadowed, Bool.and_eq_true, decide_eq_true_eq, Option.any_eq_true,
    Bool.not_eq_true', List.isEmpty_eq_false_iff] at hshadowed
  obtain ⟨⟨hcall, f, hf, ⟨hstep, htype⟩, hnone⟩, given, hgiven, hne⟩ := hshadowed
  have hcallee : (call.child? .function).bind (·.reach? Names.calledStep) = some f := by
    rw [hf]
    exact Node.reach?_of_none hstep
  obtain ⟨a, list, offset, next, ha, hlist, hputs, -, hbehind, -⟩ :=
    addArgument_placement (.sources hp) hi hmem hcall hcallee Edits.empty "foo"
  cases hgiven.symm.trans hlist
  exact ⟨p, i, bs, call, f, a, given, offset, next, hp, hi, hmem, hcall, hcallee, ha, hlist, hputs,
    Option.isNone_iff_eq_none.mp hnone, hbehind.mpr ⟨hne, hf, htype⟩⟩

end Edits

end ParamThreading
