import ParamThreading.Proofs.PackageNames

/-!
# Names that a declaration introduces

What stands for a value inside a declaration is no function of the package, whatever the package
calls by that name. The scan of a declaration makes this so for every name that it records; the name
in the guard of a type switch and those of a receive statement in a `select` are not recorded, and
they are taken for names of the package.

* `Node.introduces`  the names that a node introduces;
* `Item.Records`  the names that the scan of an item records;
* `Names.KeepsApart`, `Names.TakesForPackage`  how a name is resolved;
* `Names.introduced_resolves`  which of the two holds of an introduced name.
-/

namespace ParamThreading

/-! ## introduced names -/

namespace Node

def defines (text : String) (n : Node) : Bool :=
  n.children.any fun c => c.kind = .token && c.text text == ":="

/-- The names that a node introduces: parameters, receivers and results, variables and constants,
and the names on the left of a short declaration, of a range clause, of the guard of a type switch
and of a receive statement. The blank name is none of them. -/
def introduces (text : String) (n : Node) : List String :=
  let among (role : Role) : List Node :=
    (((n.child? role).map codeChildren).getD []).filter (·.kind = .identifier)
  let introduced := match n.kind with
    | .parameterDeclaration | .variadicParameterDeclaration | .varSpec | .constSpec =>
      n.childrenIn .name
    | .shortVarDeclaration => among .left
    | .rangeClause | .receiveStatement => if n.defines text then among .left else []
    | .typeSwitchStatement => among .alias
    | _ => []
  (introduced.map (·.text text)).filter (· ≠ "_")

end Node

def Occurrence.isRecorded (text : String) (o : Occurrence) : Bool :=
  o.countsIf (o.literal? text).isSome

def Item.Records (p : Program) (item : Item) (x : String) : Prop :=
  ∃ o ∈ item.occurrences, o.isRecorded (p.file item.file).text = true ∧
    o.name (p.file item.file).text = x

theorem Node.ne_blank_of_introduces {text x : String} {n : Node} (h : x ∈ n.introduces text) :
    x ≠ "_" := by
  have hx := (List.mem_filter.mp h).2
  exact of_decide_eq_true hx

/-- Every name that a node introduces is recorded, but for guards of type switches and receive
statements. -/
theorem Node.recorded_of_introduces {text x : String} {n : Node} (h : x ∈ n.introduces text)
    (hswitch : n.kind ≠ .typeSwitchStatement) (hreceive : n.kind ≠ .receiveStatement) :
    ∃ o ∈ n.occurrences, o.isRecorded text = true ∧ o.name text = x := by
  -- it is enough that the name is a target that counts
  suffices htarget : ∃ t ∈ n.targets, t.text text = x ∧
      ∀ i, (⟨n, t, i⟩ : Occurrence).isRecorded text = true by
    obtain ⟨t, ht, hname, hrecorded⟩ := htarget
    obtain ⟨⟨m, t', i⟩, ho, rfl⟩ := exists_occurrence ht
    cases node_of_mem_occurrences ho
    exact ⟨_, ho, hrecorded i, hname⟩
  obtain ⟨t, ht, rfl⟩ := List.mem_map.mp (List.mem_filter.mp h).1
  refine ⟨t, ?_⟩
  unfold targets Occurrence.isRecorded Occurrence.countsIf
  dsimp only at ht ⊢
  split at ht
  case h_6 hk =>
    split at ht
    · obtain ⟨ht, -⟩ := List.mem_filter.mp ht
      simpa [hk] using ht
    · cases ht
  case h_7 hk => exact absurd hk hreceive
  case h_8 hk => exact absurd hk hswitch
  case h_9 => cases ht
  all_goals simp_all

/-! ## resolution -/

namespace Names

variable {names : Names} {item : Item} {bs : Bindings} {x : String}

/-- A name is not taken for one of the package: calls of it reach at most a literal that the item
gives to the name, and it refers to no function. -/
structure KeepsApart (names : Names) (item : Item) (bs : Bindings) (x : String) : Prop where
  calls : ∀ call, call.calledName? (names.program.file item.file).text = some x →
    names.callees item.file bs call = [] ∨ ∃ o ∈ item.occurrences, ∃ l f,
      o.name (names.program.file item.file).text = x ∧
      o.literal? (names.program.file item.file).text = some l ∧
      names.functions[f]? = some ⟨.literal (names.program.file item.file).package item.file
        item.node.isDeclaration, some l⟩ ∧
      names.callees item.file bs call = [f]
  references : ∀ n, n.kind = .identifier → n.text (names.program.file item.file).text = x →
    ∀ current called, names.edgesFrom item.file bs current called n = []
  qualifiers : ∀ selector operand, selector.child? .operand = some operand →
    operand.text (names.program.file item.file).text = x →
    names.qualifiedReference? item.file bs selector = none

/-- A name is taken for one of the package. -/
structure TakesForPackage (names : Names) (item : Item) (bs : Bindings) (x : String) : Prop where
  calls : ∀ call, call.calledName? (names.program.file item.file).text = some x →
    names.callees item.file bs call =
      (names.packageFunction? (names.program.file item.file).package x).toList
  references : ∀ n, n.kind = .identifier → n.text (names.program.file item.file).text = x →
    ∀ current, names.edgesFrom item.file bs current false n =
      (names.function? (names.program.file item.file).package x).toList.map (⟨current, ·, none⟩)

theorem edgesFrom_identifier {file : FileId} {n : Node} (hk : n.kind = .identifier)
    (current : FunctionId) : names.edgesFrom file bs current false n =
      (names.valueReference? file bs n).toList.map (⟨current, ·, none⟩) := by
  obtain ⟨k, r, a, b, cs⟩ := n
  cases hk
  rw [edgesFrom]
  rfl

theorem takesForPackage (h : bs.get? x = none) : names.TakesForPackage item bs x := by
  refine ⟨fun call hcall => callees_unbound hcall h, fun n hk hn current => ?_⟩
  rw [edgesFrom_identifier hk]
  simp [valueReference?, hn, h]

theorem keepsApart_of_isSome {value : Binding} (h : bs.get? x = some value)
    (hvalue : ∀ f, value = .literal f → ∃ o ∈ item.occurrences, ∃ l,
      o.name (names.program.file item.file).text = x ∧
      o.literal? (names.program.file item.file).text = some l ∧
      names.functions[f]? = some ⟨.literal (names.program.file item.file).package item.file
        item.node.isDeclaration, some l⟩) : names.KeepsApart item bs x := by
  refine ⟨fun call hcall => ?_, fun n hk hn current called => ?_,
    fun selector operand hoperand hx => ?_⟩
  · rw [callees_bound hcall h]
    cases value with
    | literal f =>
      obtain ⟨o, ho, l, hname, hl, hf⟩ := hvalue f rfl
      exact .inr ⟨o, ho, l, f, hname, hl, hf, rfl⟩
    | _ => exact .inl rfl
  · cases called with
    | true =>
      obtain ⟨k, r, a, b, cs⟩ := n
      cases hk
      rw [edgesFrom]
      rfl
    | false =>
      rw [edgesFrom_identifier hk]
      simp [valueReference?, hn, h]
  · cases hfield : selector.child? .field with
    | none => simp [qualifiedReference?, hoperand, hfield]
    | some field => simp [qualifiedReference?, hoperand, hfield, hx, lookup, h]

end Names

section
variable {p : Program} {item : Item} {bs : Bindings} {x : String}

theorem Item.records_iff (hp : p.WellFormed) (hscan : (item, bs) ∈ (Names.ofProgram p).2)
    (hx : x ≠ "_") : item.Records p x ↔ (bs.get? x).isSome = true := by
  have hi := Program.mem_items_of_scanned hscan
  obtain ⟨earlier, later, -, rfl⟩ := Program.mem_scanned.mp hscan
  rw [Names.bindingsOf_eq, Names.isSome_foldl_recordAt hx, Program.program_namesAfter]
  -- every literal of the item is found among the functions of the program
  have hcounts : ∀ o ∈ item.occurrences, (p.namesAfter earlier).counts item.file o =
      o.isRecorded (p.file item.file).text := by
    intro o ho
    have hfunction : ((p.namesAfter earlier).givenFunction? item.file o).isSome =
        (o.literal? (p.file item.file).text).isSome := by
      cases hl : o.literal? (p.file item.file).text with
      | none => simp [Names.givenFunction?, hl]
      | some l =>
        obtain ⟨f, hf, -⟩ := Program.givenFunction?_eq hp hi (Program.program_namesAfter earlier)
          (Program.functions_namesAfter earlier) ho hl
        rw [hf]
        rfl
    rw [Names.counts, hfunction]
    rfl
  constructor
  · rintro ⟨o, ho, hrecorded, hname⟩
    exact .inr ⟨o, ho, hname, (hcounts o ho).trans hrecorded⟩
  · rintro (h | ⟨o, ho, hname, hcount⟩)
    · cases h
    · exact ⟨o, ho, (hcounts o ho).symm.trans hcount, hname⟩

theorem Names.literal_of_get? (hp : p.WellFormed) (hscan : (item, bs) ∈ (Names.ofProgram p).2)
    {f : FunctionId} (h : bs.get? x = some (.literal f)) : ∃ o ∈ item.occurrences, ∃ l,
      o.name (p.file item.file).text = x ∧ o.literal? (p.file item.file).text = some l ∧
      p.functions[f]? = some ⟨.literal (p.file item.file).package item.file item.node.isDeclaration,
        some l⟩ := by
  have hi := Program.mem_items_of_scanned hscan
  obtain ⟨earlier, later, -, rfl⟩ := Program.mem_scanned.mp hscan
  rw [bindingsOf_eq] at h
  rcases literal_foldl_recordAt h with hnil | ⟨o, ho, hname, hgiven⟩
  · cases hnil
  · rw [Program.program_namesAfter] at hname
    obtain ⟨l, hl, -⟩ := Option.bind_eq_some_iff.mp hgiven
    rw [Program.program_namesAfter] at hl
    obtain ⟨f', hf', hfunction⟩ :=
      Program.givenFunction?_eq hp hi (Program.program_namesAfter earlier)
      (Program.functions_namesAfter earlier) ho hl
    cases hgiven.symm.trans hf'
    exact ⟨o, ho, l, hname, hl, hfunction⟩

theorem Names.keepsApart (hp : p.WellFormed) (hscan : (item, bs) ∈ (Names.ofProgram p).2)
    (hx : x ≠ "_") (h : item.Records p x) : (Names.ofProgram p).1.KeepsApart item bs x := by
  obtain ⟨value, hvalue⟩ := Option.isSome_iff_exists.mp ((Item.records_iff hp hscan hx).mp h)
  refine keepsApart_of_isSome hvalue fun f hf => ?_
  rw [hf] at hvalue
  rw [program_ofProgram, functions_ofProgram]
  exact literal_of_get? hp hscan hvalue

/-- A name that a declaration introduces is kept apart from those of the package if the scan records
it, and it is taken for a name of the package if not. It is recorded wherever it is introduced, but
for guards of type switches and receive statements. -/
theorem Names.introduced_resolves (hloaded : p.Loaded) (hscan : (item, bs) ∈ (Names.ofProgram p).2)
    {n : Node} (hn : n ∈ item.node.backward) (hx : x ∈ n.introduces (p.file item.file).text) :
    (n.kind ≠ .typeSwitchStatement → n.kind ≠ .receiveStatement → item.Records p x) ∧
    (item.Records p x → (Names.ofProgram p).1.KeepsApart item bs x) ∧
    (¬ item.Records p x → (Names.ofProgram p).1.TakesForPackage item bs x) := by
  have hp := hloaded.wellFormed
  have hblank := Node.ne_blank_of_introduces hx
  refine ⟨fun hswitch hreceive => ?_, keepsApart hp hscan hblank, fun hnot => ?_⟩
  · obtain ⟨o, ho, hrecorded, hname⟩ := Node.recorded_of_introduces hx hswitch hreceive
    exact ⟨o, List.mem_flatMap.mpr ⟨n, hn, ho⟩, hrecorded, hname⟩
  · refine takesForPackage ?_
    rw [← Option.not_isSome_iff_eq_none, ← Item.records_iff hp hscan hblank]
    exact hnot

end

/-- A type switch and a `select` that introduce the name of a function, and calls of that name in
them. -/
def guardedSources : List (Path × String) :=
  [(⟨"a.go"⟩,
    "package p\n\nfunc f() \x7b\x7d\n\n" ++
    "func g() \x7b\n\tswitch f := x.(type) \x7b\n\tcase T:\n\t\tf()\n" ++
    "\t\x7d\n\tselect \x7b\n\tcase f := <-c:\n\t\tf()\n\t\x7d\n\x7d\n")]

/-- Both introduce `f`, which is not recorded, so that all calls of it reach the function of the
package. -/
theorem Names.introduced_resolves_guard : ∃ p item bs guard receive,
    Program.ofSources (fun _ => none) guardedSources = .ok p ∧ (item, bs) ∈ (Names.ofProgram p).2 ∧
    guard ∈ item.node.backward ∧ guard.kind = .typeSwitchStatement ∧
    "f" ∈ guard.introduces (p.file item.file).text ∧
    receive ∈ item.node.backward ∧ receive.kind = .receiveStatement ∧
    "f" ∈ receive.introduces (p.file item.file).text ∧ ¬ item.Records p "f" ∧
    (item.node.backward.filter fun n => n.calledName? (p.file item.file).text = some "f").map
      ((Names.ofProgram p).1.callees item.file bs) = [[3], [3]] ∧
    (p.functions[3]?).map FunctionNode.kind = some (.declared 0 0 "f") ∧
    (Names.ofProgram p).1.TakesForPackage item bs "f" := by
  have hchecked : (Program.ofSources (fun _ => none) guardedSources).toOption.any (fun p =>
      (Names.ofProgram p).2.any fun s =>
        s.1.node.backward.any (fun guard => decide (guard.kind = .typeSwitchStatement) &&
          (guard.introduces (p.file s.1.file).text).contains "f") &&
        s.1.node.backward.any (fun receive => decide (receive.kind = .receiveStatement) &&
          (receive.introduces (p.file s.1.file).text).contains "f") &&
        s.1.occurrences.all (fun o => !(o.isRecorded (p.file s.1.file).text &&
          o.name (p.file s.1.file).text == "f")) &&
        (s.1.node.backward.filter fun n => n.calledName? (p.file s.1.file).text = some "f").map
          ((Names.ofProgram p).1.callees s.1.file s.2) == [[3], [3]] &&
        (p.functions[3]?).map FunctionNode.kind == some (.declared 0 0 "f")) = true := by
    decide +kernel
  obtain ⟨p, hp, hchecked⟩ := any_toOption.mp hchecked
  simp only [List.any_eq_true, Bool.and_eq_true, List.all_eq_true, List.contains_eq_mem,
    decide_eq_true_eq, beq_iff_eq, Bool.not_eq_true', Bool.and_eq_false_iff, Prod.exists]
      at hchecked
  obtain ⟨item, bs, hscan,
      ⟨⟨⟨⟨guard, hguard, hswitch, hintroduces⟩, receive, hreceive, hstatement, hreceived⟩,
    hunrecorded⟩, hcallees⟩, hfunction⟩ := hchecked
  have hnot : ¬ item.Records p "f" := by
    rintro ⟨o, ho, hrecorded, hname⟩
    rcases hunrecorded o ho with h | h
    · rw [hrecorded] at h
      cases h
    · rw [hname] at h
      cases h
  exact ⟨p, item, bs, guard, receive, hp, hscan, hguard, hswitch, hintroduces, hreceive,
    hstatement, hreceived, hnot, hcallees, hfunction,
    (introduced_resolves (.sources hp) hscan hguard hintroduces).2.2 hnot⟩

end ParamThreading
