import ParamThreading.Proofs.IncomingCalls
import ParamThreading.Proofs.LocalNames
import ParamThreading.Proofs.PackageVariables

/-!
# What is called and what is reached

A call reaches a method through a selector with its name, and a function through its name alone in
its own package, or through the name of an import that leads to its package. Where nothing tells
which method is meant, all methods of the name are reached.

* `Program.Tabled`  functions as the text declares them;
* `Names.FallsBack`, `Names.selectorCallees_cases`  the selectors that stand for all methods of a
  name;
* `Program.CallsByName`  a function is called by its name;
* `CallGraph.edgesOf_build`, `CallGraph.forall₂_methodsNamed`  the edges of a call, and the methods
  of a name;
* `CallGraph.build_reaches_by_name`  calls reach functions by their names.
-/

namespace ParamThreading

/-! ## what is called -/

namespace Node

/-- An expression without the parentheses around it. -/
inductive Unwraps : Node → Node → Prop where
  | plain {n : Node} : n.kind ≠ .parenthesizedExpression → Unwraps n n
  | inside {n c m : Node} : n.kind = .parenthesizedExpression → n.codeChildren.head? = some c →
      Unwraps c m → Unwraps n m

def Calls (call called : Node) : Prop :=
  ∃ n, call.child? .function = some n ∧ Unwraps n called

theorem reachFirst_eq (step : Node → Option Way) (cs : List Node) :
    reachFirst step cs = ((cs.filter (·.kind.isNamed)).head?).bind (reach? step) := by
  induction cs with
  | nil => rfl
  | cons c cs ih =>
    rw [reachFirst, ih]
    by_cases h : c.kind.isNamed
    · simp [h]
    · simp [h]

theorem reach?_of_first {step : Node → Option Way} {n : Node} (h : step n = some .first) :
    n.reach? step = n.codeChildren.head?.bind (reach? step) := by
  obtain ⟨k, r, a, b, cs⟩ := n
  rw [reach?, h]
  exact reachFirst_eq step cs

theorem reach?_calledStep {n m : Node} : n.reach? Names.calledStep = some m ↔ Unwraps n m := by
  induction n using induct with
  | step n ih =>
    by_cases hk : n.kind = .parenthesizedExpression
    · have hstep : Names.calledStep n = some .first := by rw [Names.calledStep, if_pos hk]
      rw [reach?_of_first hstep, Option.bind_eq_some_iff]
      constructor
      · rintro ⟨c, hc, h⟩
        have hmem := (List.mem_filter.mp (List.mem_of_mem_head? hc)).1
        exact .inside hk hc ((ih c hmem).mp h)
      · intro h
        cases h with
        | plain hne => exact absurd hk hne
        | inside _ hc h =>
          have hmem := (List.mem_filter.mp (List.mem_of_mem_head? hc)).1
          exact ⟨_, hc, (ih _ hmem).mpr h⟩
    · have hstep : Names.calledStep n = none := by rw [Names.calledStep, if_neg hk]
      rw [reach?_of_none hstep]
      constructor
      · intro h
        cases h
        exact .plain hk
      · intro h
        cases h with
        | plain => rfl
        | inside hk' => exact absurd hk' hk

theorem calls_iff {call called : Node} : call.Calls called ↔
    (call.child? .function).bind (·.reach? Names.calledStep) = some called := by
  rw [Option.bind_eq_some_iff]
  simp only [reach?_calledStep]
  rfl

theorem Calls.mem_everything {call called : Node} (h : call.Calls called) :
    called ∈ call.everything := by
  obtain ⟨n, hn, hreach⟩ := Option.bind_eq_some_iff.mp (calls_iff.mp h)
  exact Node.mem_everything.mpr
    (.inr ⟨n, List.mem_of_find?_eq_some hn, mem_everything_of_reach? hreach⟩)

end Node

/-! ## functions as they are declared -/

namespace Program

variable {p : Program} {f : FunctionNode} {name : String}

/-- A function is what the text says that it is: the declaration of a function or method with its
name, or a literal in a declaration that holds code. -/
inductive Tabled (p : Program) : FunctionNode → Prop where
  | function {file : FileId} {d : Node} {name : String} : p.Declares ⟨file, d⟩ →
      d.kind = .functionDeclaration → d.textIn? .name (p.file file).text = some name →
      Tabled p ⟨.declared (p.file file).package file name, some d⟩
  | method {file : FileId} {d : Node} {name : String} : p.Declares ⟨file, d⟩ →
      d.kind = .methodDeclaration → d.textIn? .name (p.file file).text = some name →
      Tabled p ⟨.method (p.file file).package file (receiverType (p.file file).text d) name, some d⟩
  | literal {file : FileId} {d l : Node} : p.HoldsCode file d → l ∈ d.everything →
      l.kind = .funcLiteral → Tabled p ⟨.literal (p.file file).package file d.isDeclaration, some l⟩

theorem tabled_of_declared {file : FileId} (hfile : file < p.files.length)
    (h : f ∈ p.declaredIn file) : p.Tabled f := by
  obtain ⟨d, hd, h⟩ := List.mem_filterMap.mp h
  have hchild := (List.mem_filter.mp hd).1
  have hdeclares : p.Declares ⟨file, d⟩ := ⟨hfile, hchild, (declaredFunction?_eq_some h).1⟩
  unfold declaredFunction? at h
  dsimp only at h
  split at h
  case h_1 hk =>
    obtain ⟨name, hname, h⟩ := Option.bind_eq_some_iff.mp h
    cases h
    exact .function hdeclares hk hname
  case h_2 hk =>
    obtain ⟨name, hname, h⟩ := Option.bind_eq_some_iff.mp h
    cases h
    exact .method hdeclares hk hname
  case h_3 => cases h

/-- Every function of the table that stands in a file is what the text says. -/
theorem tabled_of_mem (hp : p.WellFormed) (h : f ∈ p.functions) {file : FileId}
    (hfile : f.kind.file? = some file) : p.Tabled f := by
  rw [functions_eq] at h
  simp only [List.mem_cons, List.mem_append, List.mem_map, List.mem_flatMap, List.mem_range] at h
  rcases h with rfl | rfl | (⟨id, -, rfl⟩ | ⟨file', hfile', h⟩) | ⟨i, hi, h⟩
  · cases hfile
  · cases hfile
  · cases hfile
  · exact tabled_of_declared hfile' h
  · obtain ⟨l, hl, hk, rfl⟩ := mem_literalsIn h
    have hitem := itemOf_mem hi
    have hmem : (⟨i.file, i.node, i.node.isDeclaration⟩ : Item) ∈ p.items := by
      rw [← hitem.isFunction]
      exact hi
    rw [hitem.isFunction]
    exact .literal ((mem_items_iff hp).mp hmem) (Node.mem_everything_of_mem_backward hl) hk

/-! ## the methods of a name -/

def methodDeclarations (p : Program) (name : String) : List Declaration :=
  (List.range p.files.length).flatMap fun file =>
    ((p.file file).tree.codeChildren.filter fun d =>
      d.kind = .methodDeclaration && d.textIn? .name (p.file file).text == some name).map
        (⟨file, ·⟩)

def methodFunction (p : Program) (name : String) (d : Declaration) : FunctionNode :=
  ⟨.method (p.file d.file).package d.file (receiverType (p.file d.file).text d.node) name,
    some d.node⟩

end Program

def FunctionKind.isMethod (name : String) : FunctionKind → Bool
  | .method _ _ _ n => n == name
  | _ => false

def FunctionKind.isDeclared : FunctionKind → Bool
  | .declared _ _ _ | .method _ _ _ _ => true
  | _ => false

namespace Program

variable {p : Program}

theorem declaredFunction?_isMethod (p : Program) (file : FileId) (d : Node) (name : String) :
    (p.declaredFunction? file d).filter (fun f => f.kind.isMethod name) =
      if d.kind = .methodDeclaration && d.textIn? .name (p.file file).text == some name then
        some (p.methodFunction name ⟨file, d⟩) else none := by
  unfold declaredFunction? methodFunction
  by_cases hfunction : d.kind = .functionDeclaration
  · cases hname : d.textIn? .name (p.file file).text <;>
      simp [hfunction, hname, Option.filter, FunctionKind.isMethod]
  · by_cases hmethod : d.kind = .methodDeclaration
    · cases hname : d.textIn? .name (p.file file).text with
      | none => simp [hmethod, hname]
      | some n =>
        by_cases hn : n = name
        · simp [hmethod, hname, hn, Option.filter, FunctionKind.isMethod]
        · simp [hmethod, hname, hn, Option.filter, FunctionKind.isMethod]
    · simp [hmethod]

theorem filter_functions_declared (p : Program) {test : FunctionKind → Bool}
    (h : ∀ kind, test kind = true → kind.isDeclared = true) :
    p.functions.filter (fun f => test f.kind) =
      (List.range p.files.length).flatMap fun file => (p.declaredIn file).filter fun f =>
        test f.kind := by
  have hother : ∀ kind : FunctionKind, kind.isDeclared = false → test kind = false := by
    intro kind hkind
    cases htest : test kind with
    | false => rfl
    | true => exact (h kind htest).symm.trans hkind
  have hinits : ((List.range p.packages.length).map
      fun id => (⟨.packageInit id, none⟩ : FunctionNode)).filter (fun f => test f.kind) = [] := by
    simp [hother (.packageInit _) rfl]
  have hliterals : (p.items.flatMap p.literalsIn).filter (fun f => test f.kind) = [] := by
    rw [List.filter_eq_nil_iff]
    intro f hf
    obtain ⟨i, -, hf⟩ := List.mem_flatMap.mp hf
    obtain ⟨l, -, -, rfl⟩ := mem_literalsIn hf
    rw [Bool.not_eq_true]
    exact hother _ rfl
  unfold functions
  rw [List.filter_append, List.filter_append, List.filter_append, hinits, hliterals,
    List.append_nil, List.append_nil, List.filter_flatMap]
  simp [hother .root rfl, hother .testMain rfl]

/-- The methods of a name among the functions of a program are its declarations, in their order. -/
theorem filter_functions (p : Program) (name : String) :
    p.functions.filter (fun f => f.kind.isMethod name) =
      (p.methodDeclarations name).map (p.methodFunction name) := by
  have hkind : ∀ kind, FunctionKind.isMethod name kind = true → kind.isDeclared = true := by
    intro kind htest
    cases kind with
    | method => rfl
    | _ => cases htest
  unfold methodDeclarations
  rw [p.filter_functions_declared hkind, List.map_flatMap]
  congr 1
  funext file
  rw [declaredIn, filter_filterMap_eq_map fun d _ => declaredFunction?_isMethod p file d name,
    List.map_map]
  rfl

end Program

theorem functionsWith_concat (fs : List FunctionNode) (f : FunctionNode)
    (test : FunctionKind → Bool) :
    functionsWith (fs ++ [f]) test =
      functionsWith fs test ++ if test f.kind then [fs.length] else [] := by
  have hearlier :
      (List.range fs.length).filter (fun i => ((fs ++ [f])[i]?).any fun g => test g.kind) =
      functionsWith fs test := by
    refine List.filter_congr fun i hi => ?_
    rw [List.getElem?_append_left (List.mem_range.mp hi)]
  rw [functionsWith, List.length_append, List.length_singleton, List.range_succ, List.filter_append,
    hearlier]
  by_cases hf : test f.kind <;> simp [hf]

/-- The functions that satisfy a test are found at the indices that are listed for it. -/
theorem forall₂_functionsWith (functions : List FunctionNode) (test : FunctionKind → Bool) :
    List.Forall₂ (fun id f => functions[id]? = some f) (functionsWith functions test)
      (functions.filter fun f => test f.kind) := by
  induction functions using List.reverseRecOn with
  | nil => exact .nil
  | append_singleton fs f ih =>
    have hfs : List.Forall₂ (fun id g => (fs ++ [f])[id]? = some g) (functionsWith fs test)
        (fs.filter fun f => test f.kind) := by
      refine ih.imp fun id g hg => ?_
      obtain ⟨hlt, -⟩ := List.getElem?_eq_some_iff.mp hg
      rw [List.getElem?_append_left hlt, hg]
    rw [functionsWith_concat, List.filter_append]
    refine List.rel_append hfs ?_
    by_cases hf : test f.kind
    · simp [hf]
    · simp [hf]

namespace Names

variable {names : Names} {file : FileId} {bs : Bindings} {name : String} {id : FunctionId}

theorem methodsNamed_eq (names : Names) (name : String) :
    names.methodsNamed name = functionsWith names.functions (FunctionKind.isMethod name) := rfl

theorem pairwise_methodsNamed (names : Names) (name : String) :
    (names.methodsNamed name).Pairwise (· < ·) :=
  List.pairwise_lt_range.filter _

theorem mem_functionsWith {functions : List FunctionNode} {test : FunctionKind → Bool} :
    id ∈ functionsWith functions test ↔ ∃ f, functions[id]? = some f ∧ test f.kind = true := by
  unfold functionsWith
  rw [List.mem_filter, List.mem_range, Option.any_eq_true]
  constructor
  · exact fun h => h.2
  · rintro ⟨f, hf, htest⟩
    exact ⟨(List.getElem?_eq_some_iff.mp hf).1, f, hf, htest⟩

theorem mem_methodsNamed : id ∈ names.methodsNamed name ↔ ∃ package file receiver node,
    names.functions[id]? = some ⟨.method package file receiver name, node⟩ := by
  rw [methodsNamed_eq, mem_functionsWith]
  constructor
  · rintro ⟨⟨kind, node⟩, hf, htest⟩
    cases kind with
    | method package file receiver n =>
      cases beq_iff_eq.mp htest
      exact ⟨package, file, receiver, node, hf⟩
    | _ => cases htest
  · rintro ⟨package, file, receiver, node, hf⟩
    exact ⟨_, hf, beq_self_eq_true name⟩

theorem function?_eq_some {package : PackageId} (h : names.function? package name = some id) :
    name ≠ "init" ∧
      ∃ file node, names.functions[id]? = some ⟨.declared package file name, node⟩ := by
  obtain ⟨⟨kind, node⟩, hf, htest⟩ := mem_functionsWith.mp (List.mem_of_getLast? h)
  cases kind with
  | declared p file n =>
    simp only [Bool.and_eq_true, beq_iff_eq, bne_iff_ne] at htest
    obtain ⟨⟨rfl, rfl⟩, hinit⟩ := htest
    exact ⟨hinit, file, node, hf⟩
  | _ => cases htest

/-! ## selectors -/

variable {selector operand field : Node} {method : String}

/-- Nothing tells which method of a name a selector stands for: what it selects from is neither
an import nor a value from outside the program, and no type with such a method is known for it. -/
inductive FallsBack (names : Names) (file : FileId) (bs : Bindings) (selector operand : Node)
    (method : String) : Prop where
  /-- A method expression of a type without such a method. -/
  | noMethod {package : PackageId} {type : String} :
      names.methodExpression? file bs selector = some (package, type) →
      names.method? package type method = none → FallsBack names file bs selector operand method
  /-- A name of which nothing is known. -/
  | noName : names.methodExpression? file bs selector = none → operand.kind = .identifier →
      names.lookup file bs (operand.text (names.program.file file).text) = none →
      names.program.imported file (operand.text (names.program.file file).text) = .notImported →
      FallsBack names file bs selector operand method
  /-- A value of a type that is not known. -/
  | noType {value : Binding} : names.methodExpression? file bs selector = none →
      operand.kind = .identifier →
      names.lookup file bs (operand.text (names.program.file file).text) = some value →
      (∀ t, value = .type t → names.program.typeTarget file t = .unknown) → value ≠ .foreign →
      FallsBack names file bs selector operand method
  /-- A value of a type without such a method. -/
  | noMethodOf {t type : String} {package : PackageId} :
      names.methodExpression? file bs selector = none → operand.kind = .identifier →
      names.lookup file bs (operand.text (names.program.file file).text) = some (.type t) →
      names.program.typeTarget file t = .loaded package type →
      names.method? package type method = none → FallsBack names file bs selector operand method
  /-- Any other expression, unless its value comes from outside the program. -/
  | noOperand : names.methodExpression? file bs selector = none → operand.kind ≠ .identifier →
      names.isForeign file bs operand = false → FallsBack names file bs selector operand method

/-- A selector whose callees are told by what it selects from: none, a single method of the name, or
what the imported package calls by the name. -/
inductive Decides (names : Names) (file : FileId) (bs : Bindings) (operand : Node)
    (method : String) : List FunctionId → Prop where
  | none : Decides names file bs operand method []
  | method {id : FunctionId} : id ∈ names.methodsNamed method →
    Decides names file bs operand method [id]
  | imported {package : PackageId} : operand.kind = .identifier →
      names.program.imported file (operand.text (names.program.file file).text) = .loaded package →
      Decides names file bs operand method (names.packageFunction? package method).toList

theorem selectorCallees_cases (names : Names) (file : FileId) (bs : Bindings)
    (hoperand : selector.child? .operand = some operand)
    (hfield : selector.child? .field = some field)
    (hmethod : field.text (names.program.file file).text = method) :
    names.FallsBack file bs selector operand method ∧
        names.selectorCallees file bs selector = names.methodsNamed method ∨
      ¬ names.FallsBack file bs selector operand method ∧
        names.Decides file bs operand method (names.selectorCallees file bs selector) := by
  unfold selectorCallees
  simp only [hoperand, hfield, hmethod]
  cases hexpression : names.methodExpression? file bs selector with
  | some found =>
    obtain ⟨package, type⟩ := found
    cases hm : names.method? package type method with
    | none => exact .inl ⟨.noMethod hexpression hm, by simp [hm]⟩
    | some id =>
      refine .inr ⟨fun h => ?_, by simpa [hm] using .method (method?_mem hm)⟩
      cases h <;> simp_all
  | none =>
    by_cases hk : operand.kind = .identifier
    · simp only [hk, if_true]
      cases hlookup : names.lookup file bs (operand.text (names.program.file file).text) with
      | none =>
        cases himported : names.program.imported file (operand.text (names.program.file file).text)
          with
        | notImported => exact .inl ⟨.noName hexpression hk hlookup himported, rfl⟩
        | foreign =>
          refine .inr ⟨fun h => ?_, .none⟩
          cases h <;> simp_all
        | loaded package =>
          refine .inr ⟨fun h => ?_, .imported hk himported⟩
          cases h <;> simp_all
      | some value =>
        cases value with
        | type t =>
          cases htarget : names.program.typeTarget file t with
          | loaded package type =>
            cases hm : names.method? package type method with
            | none =>
              exact .inl ⟨.noMethodOf hexpression hk hlookup htarget hm, by simp [htarget, hm]⟩
            | some id =>
              refine .inr ⟨fun h => ?_, by simpa [htarget, hm] using .method (method?_mem hm)⟩
              cases h <;> simp_all
          | foreign =>
            refine .inr ⟨fun h => ?_, by simpa [htarget] using .none⟩
            cases h <;> simp_all
          | unknown =>
            refine .inl ⟨.noType hexpression hk hlookup (fun t' ht => ?_) nofun, by simp [htarget]⟩
            cases ht
            exact htarget
        | foreign =>
          refine .inr ⟨fun h => ?_, .none⟩
          cases h <;> simp_all
        | literal id => exact .inl ⟨.noType hexpression hk hlookup nofun nofun, rfl⟩
        | unknown => exact .inl ⟨.noType hexpression hk hlookup nofun nofun, rfl⟩
    · simp only [hk, if_false]
      cases hforeign : names.isForeign file bs operand with
      | true =>
        refine .inr ⟨fun h => ?_, .none⟩
        cases h <;> simp_all
      | false => exact .inl ⟨.noOperand hexpression hk hforeign, rfl⟩

end Names

/-! ## calls by name -/

namespace Program

variable {p : Program}

/-- A package variable that is known to hold a function holds a literal. -/
theorem literal_of_packageBindings (hp : p.WellFormed) {items later : List Item}
    (hitems : p.items = items ++ later) {key : PackageId × String} {f : FunctionId}
    (h : (key, Binding.literal f) ∈ (p.namesAfter items).packageBindings) :
    ∃ package file inDeclaration node,
      p.functions[f]? = some ⟨.literal package file inDeclaration, node⟩ := by
  induction items using List.reverseRecOn generalizing later with
  | nil => cases h
  | append_singleton items item ih =>
    rw [List.append_assoc] at hitems
    rw [namesAfter_append_singleton] at h
    unfold Names.exporting at h
    split at h
    · exact ih hitems h
    · rcases List.mem_append.mp h with h | h
      · obtain ⟨name, -, hname⟩ := List.mem_filterMap.mp (List.mem_reverse.mp h)
        obtain ⟨v, hv, hpair⟩ := Option.map_eq_some_iff.mp hname
        cases hpair
        obtain ⟨o, -, l, -, -, hf⟩ :=
          Names.literal_of_get? hp (mem_scanned.mpr ⟨items, later, hitems, rfl⟩) hv
        exact ⟨_, _, _, _, hf⟩
      · exact ih hitems h

/-- What is called is a name of the function that it reaches. A literal has no name of its own. -/
inductive CallsByName (p : Program) (file : FileId) (called : Node) : FunctionKind → Prop where
  /-- A method is selected by its name. -/
  | method {package : PackageId} {home : FileId} {receiver name : String} :
      called.kind = .selectorExpression → called.textIn? .field (p.file file).text = some name →
      CallsByName p file called (.method package home receiver name)
  /-- A function of the package has its name alone. -/
  | plain {home : FileId} {name : String} : called.kind = .identifier →
      called.text (p.file file).text = name → name ≠ "init" →
      CallsByName p file called (.declared (p.file file).package home name)
  /-- A function of another package is selected from an import that leads to its package. -/
  | imported {package : PackageId} {home : FileId} {name : String} {qualifier : Node}
      {spec : Import} :
      called.kind = .selectorExpression → called.textIn? .field (p.file file).text = some name →
      called.child? .operand = some qualifier → qualifier.kind = .identifier →
      (p.file file).imports.find? (p.importAnswers (qualifier.text (p.file file).text)) =
        some spec →
      p.packageByImportPath? spec.path = some package → name ≠ "init" →
      CallsByName p file called (.declared package home name)
  | literal {package : PackageId} {home : FileId} {inDeclaration : Bool} :
      CallsByName p file called (.literal package home inDeclaration)

theorem imported_eq_loaded {file : FileId} {name : String} {package : PackageId}
    (h : p.imported file name = .loaded package) : ∃ spec,
      (p.file file).imports.find? (p.importAnswers name) = some spec ∧
        p.packageByImportPath? spec.path = some package := by
  unfold imported at h
  split at h
  case h_1 => cases h
  case h_2 spec hspec =>
    split at h
    case h_1 id hid =>
      cases h
      exact ⟨spec, hspec, hid⟩
    case h_2 => cases h

/-- A function of a package by its name, or a literal that a variable of the package holds. -/
theorem packageFunction?_eq_some (hp : p.WellFormed) {package : PackageId} {name : String}
    {id : FunctionId} (h : (Names.ofProgram p).1.packageFunction? package name = some id) :
    (∃ home node, name ≠ "init" ∧ p.functions[id]? = some ⟨.declared package home name, node⟩) ∨
      ∃ package home inDeclaration node,
        p.functions[id]? = some ⟨.literal package home inDeclaration, node⟩ := by
  unfold Names.packageFunction? at h
  rcases Option.or_eq_some_iff.mp h with h | ⟨-, h⟩
  · obtain ⟨hinit, home, node, hf⟩ := Names.function?_eq_some h
    rw [Names.functions_ofProgram] at hf
    exact .inl ⟨home, node, hinit, hf⟩
  · split at h
    case h_1 hlookup =>
      cases h
      obtain ⟨front, back, hbindings, -⟩ := List.lookup_eq_some_iff.mp hlookup
      have hmem :
          ((package, name), Binding.literal id) ∈ (p.namesAfter p.items).packageBindings := by
        rw [namesAfter_items, hbindings]
        exact List.mem_append_right _ List.mem_cons_self
      exact .inr (literal_of_packageBindings hp (List.append_nil _).symm hmem)
    case h_2 => cases h

theorem CallsByName.file? {file : FileId} {called : Node} {kind : FunctionKind}
    (h : p.CallsByName file called kind) : ∃ home, kind.file? = some home := by
  cases h with
  | method => exact ⟨_, rfl⟩
  | plain => exact ⟨_, rfl⟩
  | imported => exact ⟨_, rfl⟩
  | literal => exact ⟨_, rfl⟩

theorem selectorCallees_named (hp : p.WellFormed) {file : FileId} {bs : Bindings} {selector : Node}
    {callee : FunctionId} (hk : selector.kind = .selectorExpression)
    (h : callee ∈ (Names.ofProgram p).1.selectorCallees file bs selector) :
    ∃ f, p.functions[callee]? = some f ∧ p.CallsByName file selector f.kind := by
  cases hoperand : selector.child? .operand with
  | none => simp [Names.selectorCallees, hoperand] at h
  | some operand =>
    cases hfield : selector.child? .field with
    | none => simp [Names.selectorCallees, hoperand, hfield] at h
    | some field =>
      have hname :
          selector.textIn? .field (p.file file).text = some (field.text (p.file file).text) := by
        rw [Node.textIn?, hfield]
        rfl
      have hmethods : ∀ id, id ∈ (Names.ofProgram p).1.methodsNamed
          (field.text (p.file file).text) →
          ∃ f, p.functions[id]? = some f ∧ p.CallsByName file selector f.kind := by
        intro id hid
        obtain ⟨package, home, receiver, node, hf⟩ := Names.mem_methodsNamed.mp hid
        rw [Names.functions_ofProgram] at hf
        exact ⟨_, hf, .method hk hname⟩
      rcases Names.selectorCallees_cases (Names.ofProgram p).1 file bs hoperand hfield rfl with
        ⟨-, hall⟩ | ⟨-, hdecides⟩
      · rw [hall, Names.program_ofProgram] at h
        exact hmethods callee h
      · rw [Names.program_ofProgram] at hdecides
        generalize (Names.ofProgram p).1.selectorCallees file bs selector = callees at h hdecides
        cases hdecides with
        | none => cases h
        | method hid =>
          cases List.mem_singleton.mp h
          exact hmethods _ hid
        | imported hkind himported =>
          rw [Names.program_ofProgram] at himported
          obtain ⟨spec, hspec, hpath⟩ := imported_eq_loaded himported
          rcases packageFunction?_eq_some hp (Option.mem_toList.mp h) with
            ⟨home, node, hinit, hf⟩ | ⟨package, home, inDeclaration, node, hf⟩
          · exact ⟨_, hf, .imported hk hname hoperand hkind hspec hpath hinit⟩
          · exact ⟨_, hf, .literal⟩

theorem callees_named (hp : p.WellFormed) {file : FileId} {d call : Node} {bs : Bindings}
    {callee : FunctionId} (hscan : p.Scans file d bs) (hcall : call ∈ d.everything)
    (h : callee ∈ (Names.ofProgram p).1.callees file bs call) : ∃ called f, call.Calls called ∧
      p.functions[callee]? = some f ∧ p.CallsByName file called f.kind := by
  unfold Names.callees at h
  dsimp only at h
  rw [Names.program_ofProgram, Names.functions_ofProgram] at h
  split at h
  case h_1 => cases h
  case h_2 called hcalled =>
    refine ⟨called, ?_⟩
    have hcalls := Node.calls_iff.mpr hcalled
    suffices hf : ∃ f, p.functions[callee]? = some f ∧ p.CallsByName file called f.kind by
      obtain ⟨f, hf, hnamed⟩ := hf
      exact ⟨f, hcalls, hf, hnamed⟩
    split at h
    case h_1 hk =>
      split at h
      case h_1 l hget =>
        cases List.mem_singleton.mp h
        obtain ⟨o, -, literal, -, -, hf⟩ := Names.literal_of_get? hp hscan hget
        exact ⟨_, hf, .literal⟩
      case h_2 => cases h
      case h_3 =>
        rcases packageFunction?_eq_some hp (Option.mem_toList.mp h) with
          ⟨home, node, hinit, hf⟩ | ⟨package, home, inDeclaration, node, hf⟩
        · exact ⟨_, hf, .plain hk rfl hinit⟩
        · exact ⟨_, hf, .literal⟩
    case h_2 hk => exact selectorCallees_named hp hk h
    case h_3 hk =>
      have hd := hscan.holdsCode hp
      have htree := hp.tree _ (file_mem hd.loaded)
      have hbelow := Node.everything_trans hcalls.mem_everything hcall
      obtain ⟨above, hpath⟩ := Node.exists_path (htree.made d hd.child) hbelow (by rw [hk]; rfl)
      obtain ⟨id, hid, hf⟩ := CallGraph.functionAt?_literal hp (mem_items_of_scanned hscan)
        (hpath.mem_backward List.mem_cons_self) hk
      cases hid.symm.trans (Option.mem_toList.mp h)
      exact ⟨_, hf, .literal⟩
    case h_4 => cases h

end Program

namespace CallGraph

variable {p : Program} {scope : Scope} {site : CallSite}

open scoped Classical in
noncomputable def edgesOf (g : CallGraph) (site : CallSite) : List Edge :=
  g.edges.filter fun e => e.site = some site

/-- A call has an edge to each of its callees, in their order. -/
theorem edgesOf_build (hp : p.WellFormed) (scope : Scope) {d : Node} {bs : Bindings}
    {above : List Node} (hscan : p.Scans site.file d bs) (hpath : Node.Path d (site.node :: above))
    (hcall : site.node.kind = .callExpression) : ∃ caller,
      (build p scope).edgesOf site = ((Names.ofProgram p).1.callees site.file bs site.node).map
        fun callee => ⟨caller, callee, some site⟩ := by
  classical
  refine ⟨(Names.ofProgram p).1.around site.file
    ((Names.ofProgram p).1.ownerOf ⟨site.file, d, d.isDeclaration⟩) above, ?_⟩
  let here : Spot := ⟨⟨site.file, d, d.isDeclaration⟩, bs, site.node :: above⟩
  have hhere : here ∈ p.spots := Program.mem_spots.mpr ⟨hscan, hpath⟩
  have hedges : here.edges (Names.ofProgram p).1 =
      ((Names.ofProgram p).1.callees site.file bs site.node).map fun callee =>
        ⟨(Names.ofProgram p).1.around site.file
          ((Names.ofProgram p).1.ownerOf ⟨site.file, d, d.isDeclaration⟩) above, callee,
            some site⟩ :=
    Names.edgesAt_call hcall
  -- only one spot of the program is that of the call
  have hspots : (p.spots.filter fun x => x.item.file = site.file ∧ x.way.head? = some site.node) =
      [here] := by
    refine filter_eq_singleton ((Program.spots_apart hp).imp fun {x y} hapart hx => ?_) hhere
      (by simp [here])
    obtain ⟨hfile, hhead⟩ := of_decide_eq_true hx
    rw [decide_eq_false_iff_not]
    rintro ⟨hfile', hhead'⟩
    exact hapart (hfile.trans hfile'.symm) site.node (by rw [hcall]; rfl) hhead hhead'
  have hother : ∀ x ∈ p.spots,
      decide (x.item.file = site.file ∧ x.way.head? = some site.node) = false →
        (x.edges (Names.ofProgram p).1).filter (fun e => e.site = some site) = [] := by
    intro x _ hx
    rw [List.filter_eq_nil_iff]
    intro e he hsite
    obtain ⟨hfile, -, above', hway, -⟩ := Spot.edges_sited he (of_decide_eq_true hsite)
    exact of_decide_eq_false hx ⟨hfile.symm, by rw [hway]; rfl⟩
  unfold edgesOf
  rw [filter_edges hp fun _ _ _ => by simp, List.filter_flatMap,
    ← flatMap_filter_of_nil hother, hspots,
    List.flatMap_singleton, hedges, List.filter_eq_self]
  intro e he
  obtain ⟨callee, -, rfl⟩ := List.mem_map.mp he
  simp

theorem forall₂_methodsNamed (p : Program) (scope : Scope) (name : String) :
    List.Forall₂ (build p scope).IsFunctionOf ((Names.ofProgram p).1.methodsNamed name)
      (p.methodDeclarations name) := by
  have hmethods := forall₂_functionsWith p.functions (FunctionKind.isMethod name)
  rw [p.filter_functions name, List.forall₂_map_right_iff] at hmethods
  rw [Names.methodsNamed_eq, Names.functions_ofProgram]
  refine hmethods.imp fun id d hd => ?_
  exact ⟨_, by rw [functions_build]; exact hd, rfl, rfl⟩

/-- A call of a selector, with what is known of the names around it. -/
structure SelectorCall (p : Program) (site : CallSite) (bs : Bindings) (selector operand : Node)
    (method : String) : Prop where
  scanned : ∃ d, p.Scans site.file d bs ∧ site.node ∈ d.everything
  call : site.node.kind = .callExpression
  calls : site.node.Calls selector
  kind : selector.kind = .selectorExpression
  operand : selector.child? .operand = some operand
  method : selector.textIn? .field (p.file site.file).text = some method

/-- The edges of a call of a selector: to all methods of the name, or by what the selector stands
for. -/
theorem SelectorCall.edgesOf_cases (hp : p.WellFormed) (scope : Scope) {bs : Bindings}
    {selector operand : Node} {method : String}
    (h : SelectorCall p site bs selector operand method) :
    ∃ caller callees,
      (build p scope).edgesOf site = callees.map (fun callee => ⟨caller, callee, some site⟩) ∧
      ((Names.ofProgram p).1.FallsBack site.file bs selector operand method ∧
          callees = (Names.ofProgram p).1.methodsNamed method ∨
        ¬ (Names.ofProgram p).1.FallsBack site.file bs selector operand method ∧
          (Names.ofProgram p).1.Decides site.file bs operand method callees) := by
  obtain ⟨d, hscan, hmem⟩ := h.scanned
  have hd := hscan.holdsCode hp
  have htree := hp.tree _ (Program.file_mem hd.loaded)
  obtain ⟨above, hpath⟩ := Node.exists_path (htree.made d hd.child) hmem (by rw [h.call]; rfl)
  obtain ⟨caller, hedges⟩ := edgesOf_build hp scope hscan hpath h.call
  obtain ⟨field, hfield, hmethod⟩ := Option.map_eq_some_iff.mp h.method
  have hcallees : (Names.ofProgram p).1.callees site.file bs site.node =
      (Names.ofProgram p).1.selectorCallees site.file bs selector := by
    unfold Names.callees
    dsimp only
    rw [Node.calls_iff.mp h.calls]
    simp only [h.kind]
  rw [hcallees] at hedges
  refine ⟨caller, _, hedges, Names.selectorCallees_cases _ _ _ h.operand hfield ?_⟩
  rw [Names.program_ofProgram]
  exact hmethod

/-- Calls reach functions by their names. -/
structure ReachesByName (g : CallGraph) (p : Program) : Prop where
  /-- What is called is a name of the function that it reaches, and this is the name that it is
  declared by. -/
  named : ∀ caller callee site, (⟨caller, callee, some site⟩ : Edge) ∈ g.edges → ∃ called f,
    site.node.Calls called ∧ g.functions[callee]? = some f ∧ p.Tabled f ∧
      p.CallsByName site.file called f.kind
  /-- Where nothing tells which method is meant, the call reaches all methods of the name, each once
  and in the order of their declarations. -/
  every : ∀ site bs selector operand method, SelectorCall p site bs selector operand method →
    (Names.ofProgram p).1.FallsBack site.file bs selector operand method → ∃ caller callees,
      g.edgesOf site = callees.map (fun callee => ⟨caller, callee, some site⟩) ∧
      callees.Pairwise (· < ·) ∧ List.Forall₂ g.IsFunctionOf callees (p.methodDeclarations method)
  /-- Any other call of a selector reaches at most one function. -/
  single : ∀ site bs selector operand method, SelectorCall p site bs selector operand method →
    ¬ (Names.ofProgram p).1.FallsBack site.file bs selector operand method →
      (g.edgesOf site).length ≤ 1

theorem build_reaches_by_name (hloaded : p.Loaded) (scope : Scope) :
    (build p scope).ReachesByName p := by
  have hp := hloaded.wellFormed
  constructor
  · intro caller callee site hedge
    obtain ⟨d, bs, above, hscan, hpath, -, hcallee, -⟩ := (mem_sited hp).mp hedge
    obtain ⟨called, f, hcalls, hf, hnamed⟩ :=
      Program.callees_named hp hscan (hpath.mem_everything _ List.mem_cons_self) hcallee
    obtain ⟨home, hhome⟩ := hnamed.file?
    exact ⟨called, f, hcalls, by rw [functions_build]; exact hf,
      Program.tabled_of_mem hp (List.mem_of_getElem? hf) hhome, hnamed⟩
  · intro site bs selector operand method hcall hfalls
    obtain ⟨caller, callees, hedges, ⟨-, rfl⟩ | ⟨hnot, -⟩⟩ := hcall.edgesOf_cases hp scope
    · exact ⟨caller, _, hedges, Names.pairwise_methodsNamed _ _,
        forall₂_methodsNamed p scope method⟩
    · exact absurd hfalls hnot
  · intro site bs selector operand method hcall hnot
    obtain ⟨caller, callees, hedges, ⟨hfalls, -⟩ | ⟨-, hdecides⟩⟩ := hcall.edgesOf_cases hp scope
    · exact absurd hfalls hnot
    · rw [hedges, List.length_map]
      cases hdecides with
      | none => exact Nat.zero_le 1
      | method => exact Nat.le_refl 1
      | imported => exact Option.length_toList_le

def unknownSources : List (Path × String) :=
  [(⟨"a.go"⟩, "package p\n\nfunc (a A) M() \x7b\x7d\n\nfunc (b B) M() \x7b\x7d\n\n" ++
    "func f() \x7b\n\t(x.M)()\n\x7d\n")]

/-- The methods are functions 3 and 4, and `f` is function 5. -/
theorem build_reaches_by_name_unknown : ∃ p site bs selector operand,
    Program.ofSources (fun _ => none) unknownSources = .ok p ∧
    SelectorCall p site bs selector operand "M" ∧
    (Names.ofProgram p).1.FallsBack site.file bs selector operand "M" ∧
    (build p (Scope.ofProgram p)).sites = [(5, 3, 61), (5, 4, 61)] ∧
    (p.functions.drop 3).map FunctionNode.kind =
      [.method 0 0 "A" "M", .method 0 0 "B" "M", .declared 0 0 "f"] ∧
    (build p (Scope.ofProgram p)).ReachesByName p := by
  have hchecked : (Program.ofSources (fun _ => none) unknownSources).toOption.any (fun p =>
      ((Names.ofProgram p).2.any fun s => s.1.node.everything.any fun call =>
        decide (call.kind = .callExpression) &&
        ((call.child? .function).bind (·.reach? Names.calledStep)).any fun selector =>
          decide (selector.kind = .selectorExpression) &&
          selector.textIn? .field (p.file s.1.file).text == some "M" &&
          ((Names.ofProgram p).1.methodExpression? s.1.file s.2 selector).isNone &&
          (selector.child? .operand).any fun operand => decide (operand.kind = .identifier) &&
            ((Names.ofProgram p).1.lookup s.1.file s.2
              (operand.text (p.file s.1.file).text)).isNone &&
            p.imported s.1.file (operand.text (p.file s.1.file).text) == .notImported) &&
      (build p (Scope.ofProgram p)).sites == [(5, 3, 61), (5, 4, 61)] &&
      (p.functions.drop 3).map FunctionNode.kind ==
        [.method 0 0 "A" "M", .method 0 0 "B" "M", .declared 0 0 "f"]) = true := by
    decide +kernel
  obtain ⟨p, hp, hchecked⟩ := any_toOption.mp hchecked
  simp only [List.any_eq_true, Bool.and_eq_true, decide_eq_true_eq, beq_iff_eq, Prod.exists,
    Option.any_eq_true, Option.isNone_iff_eq_none] at hchecked
  obtain ⟨⟨⟨item, bs, hscan, call, hmem, hcall, selector, hcalls, ⟨⟨hkind, hmethod⟩, hexpression⟩,
      operand,
    hoperand, ⟨hidentifier, hlookup⟩, himported⟩, hsites⟩, hfunctions⟩ := hchecked
  refine ⟨p, ⟨item.file, call⟩, bs, selector, operand, hp, ?_, ?_, hsites, hfunctions,
    build_reaches_by_name (.sources hp) _⟩
  · exact ⟨⟨item.node, Program.scans_of_mem hscan, hmem⟩, hcall, Node.calls_iff.mpr hcalls,
      hkind, hoperand, hmethod⟩
  · exact .noName hexpression hidentifier (by rw [Names.program_ofProgram]; exact hlookup)
      (by rw [Names.program_ofProgram]; exact himported)

end CallGraph

end ParamThreading
