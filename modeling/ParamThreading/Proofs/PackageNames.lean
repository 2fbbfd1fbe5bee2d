import Mathlib.Data.List.Induction
import ParamThreading.Proofs.ArgumentPlacement
import ParamThreading.Proofs.Occurrences

/-!
# Names when an item is scanned, and where calls through them lead

What is known of names when an item is scanned, and where calls through a name lead. Items are
scanned one after the other; an item of variables or constants adds what it knows of them to the
names of its package.

* `Program.namesAfter`, `Program.mem_scanned`  the names that are known after some items;
* `Item.Declares`, `Program.lookup_namesAfter`  the items that add a name;
* `Names.callees_bound`, `Names.callees_unbound`  calls of a name;
* `Names.methodsOf`, `Names.callees_selector`  calls of a method on a name.
-/

namespace ParamThreading

/-! ## the names of the packages -/

/-- An item declares a variable or constant of a package. -/
structure Item.Declares (p : Program) (item : Item) (package : PackageId) (x : String) : Prop where
  isFunction : item.isFunction = false
  package : (p.file item.file).package = package
  name : x ∈ Names.declaredNames (p.file item.file).text item.node

namespace Names

variable {names : Names} {item : Item} {bs : Bindings} {package : PackageId} {x : String}

theorem lookup_exporting_declared (h : item.Declares names.program package x) {value : Binding}
    (hget : bs.get? x = some value) :
    (names.exporting item bs).packageBindings.lookup (package, x) = some value := by
  unfold exporting
  rw [if_neg (by rw [h.isFunction]; exact Bool.false_ne_true)]
  rw [List.lookup_append, lookup_eq_of_forall, Option.some_or]
  · intro y hy heq
    obtain ⟨name, -, hname⟩ := List.mem_filterMap.mp (List.mem_reverse.mp hy)
    obtain ⟨v, hv, rfl⟩ := Option.map_eq_some_iff.mp hname
    cases heq
    exact Option.some.inj (hv.symm.trans hget)
  · refine List.mem_reverse.mpr (List.mem_filterMap.mpr ⟨x, h.name, ?_⟩)
    rw [hget, h.package]
    rfl

theorem lookup_exporting_other (h : ¬ item.Declares names.program package x) :
    (names.exporting item bs).packageBindings.lookup (package, x) =
      names.packageBindings.lookup (package, x) := by
  unfold exporting
  split
  case isTrue => rfl
  case isFalse hfunction =>
    rw [List.lookup_append, List.lookup_eq_none_iff.mpr, Option.none_or]
    intro y hy
    obtain ⟨name, hname, hsome⟩ := List.mem_filterMap.mp (List.mem_reverse.mp hy)
    obtain ⟨v, -, rfl⟩ := Option.map_eq_some_iff.mp hsome
    refine bne_iff_ne.mpr fun heq => h ?_
    cases heq
    exact ⟨Bool.not_eq_true _ ▸ hfunction, rfl, hname⟩

end Names

namespace Program

variable {p : Program}

def namesAfter (p : Program) (items : List Item) : Names :=
  (items.foldl Names.scan (⟨p, p.functions, []⟩, [])).1

@[simp] theorem program_namesAfter (items : List Item) : (p.namesAfter items).program = p :=
  (Names.scan_foldl items _).1

@[simp] theorem functions_namesAfter (items : List Item) :
    (p.namesAfter items).functions = p.functions :=
  (Names.scan_foldl items _).2.1

abbrev namesAt (p : Program) (i : Nat) : Names := p.namesAfter (p.items.take i)

theorem namesAfter_items : p.namesAfter p.items = (Names.ofProgram p).1 := rfl

theorem namesAfter_append_singleton (items : List Item) (item : Item) :
    p.namesAfter (items ++ [item]) =
      (p.namesAfter items).exporting item ((p.namesAfter items).bindingsOf item) := by
  unfold namesAfter
  rw [List.foldl_append]
  rfl

theorem lookup_namesAfter {items more : List Item} {package : PackageId} {x : String}
    (h : ∀ item ∈ more, ¬ item.Declares p package x) :
    (p.namesAfter (items ++ more)).packageBindings.lookup (package, x) =
      (p.namesAfter items).packageBindings.lookup (package, x) := by
  induction more generalizing items with
  | nil => rw [List.append_nil]
  | cons item more ih =>
    rw [List.append_cons, ih fun i hi => h i (List.mem_cons_of_mem item hi),
      namesAfter_append_singleton]
    refine Names.lookup_exporting_other ?_
    rw [program_namesAfter]
    exact h item List.mem_cons_self

/-- An item is scanned with the names that are known after the items in front of it. -/
theorem mem_scanned {item : Item} {bs : Bindings} : (item, bs) ∈ (Names.ofProgram p).2 ↔
    ∃ earlier later, p.items = earlier ++ item :: later ∧
      bs = (p.namesAfter earlier).bindingsOf item := by
  suffices h : ∀ items : List Item,
      (item, bs) ∈ (items.foldl Names.scan (⟨p, p.functions, []⟩, [])).2 ↔
        ∃ earlier later, items = earlier ++ item :: later ∧
          bs = (p.namesAfter earlier).bindingsOf item from h p.items
  intro items
  induction items using List.reverseRecOn with
  | nil => simp
  | append_singleton items last ih =>
    have hstep : (item, bs) ∈ ((items ++ [last]).foldl Names.scan (⟨p, p.functions, []⟩, [])).2 ↔
        (item, bs) ∈ (items.foldl Names.scan (⟨p, p.functions, []⟩, [])).2 ∨
          item = last ∧ bs = (p.namesAfter items).bindingsOf last := by
      rw [List.foldl_append]
      simp [Names.scan, namesAfter]
    rw [hstep, ih]
    constructor
    · rintro (⟨earlier, later, rfl, hbs⟩ | ⟨rfl, hbs⟩)
      · exact ⟨earlier, later ++ [last], by simp, hbs⟩
      · exact ⟨items, [], rfl, hbs⟩
    · rintro ⟨earlier, later, hsplit, hbs⟩
      rcases List.eq_nil_or_concat later with rfl | ⟨later, last', rfl⟩
      · obtain ⟨rfl, hlast⟩ := List.append_inj' hsplit rfl
        cases hlast
        exact .inr ⟨rfl, hbs⟩
      · rw [List.concat_eq_append, ← List.cons_append, ← List.append_assoc] at hsplit
        obtain ⟨hitems, -⟩ := List.append_inj' hsplit rfl
        exact .inl ⟨earlier, later, hitems, hbs⟩

end Program

/-! ## calls through a name -/

namespace Node

/-- The name that is called, in `f(…)` or with parentheses around the name. -/
def calledName? (text : String) (call : Node) : Option String := do
  let callee ← (call.child? .function).bind (·.reach? Names.calledStep)
  if callee.kind = .identifier then some (callee.text text) else none

/-- The name and the method in a call such as `x.m(…)`. -/
def methodCall? (text : String) (call : Node) : Option (String × String) := do
  let callee ← (call.child? .function).bind (·.reach? Names.calledStep)
  let operand ← callee.child? .operand
  let field ← callee.child? .field
  if callee.kind = .selectorExpression ∧ operand.kind = .identifier then
    some (operand.text text, field.text text)
  else none

end Node

def Binding.function? : Binding → Option FunctionId
  | literal f => some f
  | _ => none

theorem Program.methodExpressionType?_name {p : Program} {file : FileId} {selector operand : Node}
    {package : PackageId} {type : String} (hoperand : selector.child? .operand = some operand)
    (hk : operand.kind = .identifier)
    (h : p.methodExpressionType? file selector = some (package, type)) :
    type = operand.text (p.file file).text := by
  have hstep : methodTypeStep (p.file file).text operand = none := by rw [methodTypeStep, hk]
  have hselector : selector.kind = .selectorExpression :=
    kind_of_methodExpressionType? (by rw [h]; rfl)
  simp [methodExpressionType?, hselector, hoperand, Node.reach?_of_none hstep, hk] at h
  exact h.2.2.symm

namespace Names

variable {names : Names} {file : FileId} {bs : Bindings} {call : Node} {x m : String}

/-- A call of a name of the item reaches the literal that the name holds, or nothing. -/
theorem callees_bound (h : call.calledName? (names.program.file file).text = some x)
    {value : Binding}
    (hget : bs.get? x = some value) : names.callees file bs call = value.function?.toList := by
  obtain ⟨callee, hcallee, h⟩ := Option.bind_eq_some_iff.mp h
  split at h
  case isTrue hk =>
    cases h
    unfold callees
    dsimp only
    rw [hcallee]
    simp only [hk, hget]
    cases value <;> rfl
  case isFalse => cases h

/-- A call of any other name reaches the function of the package, or the literal that a variable of
the package holds. -/
theorem callees_unbound (h : call.calledName? (names.program.file file).text = some x)
    (hget : bs.get? x = none) : names.callees file bs call =
      (names.packageFunction? (names.program.file file).package x).toList := by
  obtain ⟨callee, hcallee, h⟩ := Option.bind_eq_some_iff.mp h
  split at h
  case isTrue hk =>
    cases h
    unfold callees
    dsimp only
    rw [hcallee]
    simp only [hk, hget]
  case isFalse => cases h

/-- The methods of a name that a type can have. -/
def methodsOn (names : Names) (target : TypeTarget) (method : String) : List FunctionId :=
  match target with
  | .loaded package type =>
    ((names.method? package type method).map ([·])).getD (names.methodsNamed method)
  | .foreign => []
  | .unknown => names.methodsNamed method

/-- The methods of a name that a value can have, for what is known of the value in a file. -/
def methodsOf (names : Names) (file : FileId) (value : Binding) (method : String) :
    List FunctionId :=
  match value with
  | .type t => names.methodsOn (names.program.typeTarget file t) method
  | .foreign => []
  | _ => names.methodsNamed method

theorem methodExpression?_eq_none {selector operand : Node} {value : Binding}
    (hoperand : selector.child? .operand = some operand) (hk : operand.kind = .identifier)
    (hlookup : names.lookup file bs (operand.text (names.program.file file).text) = some value) :
    names.methodExpression? file bs selector = none := by
  rw [← Option.not_isSome_iff_eq_none, isSome_methodExpression?]
  rintro ⟨package, type, htype, hnone⟩
  rw [Program.methodExpressionType?_name hoperand hk htype, hlookup] at hnone
  cases hnone

theorem callees_selector (h : call.methodCall? (names.program.file file).text = some (x, m))
    {value : Binding} (hlookup : names.lookup file bs x = some value) :
    names.callees file bs call = names.methodsOf file value m := by
  obtain ⟨callee, hcallee, h⟩ := Option.bind_eq_some_iff.mp h
  obtain ⟨operand, hoperand, h⟩ := Option.bind_eq_some_iff.mp h
  obtain ⟨field, hfield, h⟩ := Option.bind_eq_some_iff.mp h
  split at h
  case isTrue hk =>
    cases h
    have hvalue := methodExpression?_eq_none hoperand hk.2 hlookup
    unfold callees
    dsimp only
    rw [hcallee]
    simp only [hk.1]
    unfold selectorCallees
    simp only [hoperand, hfield, hvalue, hk.2, hlookup]
    cases value <;> rfl
  case isFalse => cases h

end Names

end ParamThreading
