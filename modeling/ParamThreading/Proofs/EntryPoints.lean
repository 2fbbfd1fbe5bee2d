import ParamThreading.Proofs.Assembly
import ParamThreading.Proofs.CalledNames
import ParamThreading.Proofs.PackageVariables

/-!
# Where a program starts

Which functions these are is settled twice: package by package, when the scope of the analysis is
found, and function by function, when the start of the program and the run of the tests get their
edges. Both give the same functions, so that there is something to analyse just if a declared
function is reached by such an edge.

* `Scope.ofProgram_eq`  the packages of the scope and the number of tests;
* `CallGraph.targetsOf_root`, `CallGraph.targetsOf_test`  where the edges from the start and the
  tests lead;
* `Program.map_name_tested`  the names of the tests, by function and by package;
* `CallGraph.build_starts`  the scope and the edges agree.
-/

namespace ParamThreading

/-! ## the scope -/

namespace Scope

variable {p : Program}

def initials (p : Program) : List PackageId :=
  (List.range p.packages.length).filter fun id => (p.package id).initial

/-- Whether a package that the user named has tests to offer: it is not a main package. -/
def isTestedPackage (p : Program) (id : PackageId) : Bool :=
  (p.package id).initial && !isMain p (p.package id)

theorem foldl_add (p : Program) (ids : List PackageId) (s : Scope) : ids.foldl (add p) s =
    ⟨s.mains ++ ids.filter (fun id => isMain p (p.package id)),
      s.testPackages ++ ids.filter (fun id => !isMain p (p.package id)),
      s.testFunctions + ((ids.filter fun id => !isMain p (p.package id)).flatMap fun id =>
        testNames p (p.package id)).length⟩ := by
  induction ids generalizing s with
  | nil => simp
  | cons id ids ih =>
    rw [List.foldl_cons, ih, add]
    cases hmain : isMain p (p.package id) <;> simp [hmain, Nat.add_assoc]

theorem ofProgram_eq (p : Program) : ofProgram p =
    ⟨(initials p).filter fun id => isMain p (p.package id),
      (initials p).filter fun id => !isMain p (p.package id),
      (((initials p).filter fun id => !isMain p (p.package id)).flatMap fun id =>
        testNames p (p.package id)).length⟩ := by
  show (initials p).foldl (add p) ⟨[], [], 0⟩ = _
  rw [foldl_add, List.nil_append, List.nil_append, Nat.zero_add]

theorem mem_initials {id : PackageId} :
    id ∈ initials p ↔ id < p.packages.length ∧ (p.package id).initial = true := by
  rw [initials, List.mem_filter, List.mem_range]

theorem mem_mains {id : PackageId} : id ∈ (ofProgram p).mains ↔
    id < p.packages.length ∧ (p.package id).initial = true ∧ isMain p (p.package id) = true := by
  rw [ofProgram_eq, List.mem_filter, mem_initials, and_assoc]

theorem mem_testPackages {id : PackageId} : id ∈ (ofProgram p).testPackages ↔
    id < p.packages.length ∧ (p.package id).initial = true ∧ isMain p (p.package id) = false := by
  rw [ofProgram_eq, List.mem_filter, mem_initials, and_assoc, Bool.not_eq_true']

theorem testPackages_eq (p : Program) :
    (ofProgram p).testPackages = (List.range p.packages.length).filter (isTestedPackage p) := by
  rw [ofProgram_eq]
  simp only [initials, List.filter_filter]
  exact List.filter_congr fun id _ => Bool.and_comm _ _

def isStart (scope : Scope) : FunctionKind → Bool
  | .declared package _ name => name = "main" && scope.mains.contains package
  | _ => false

def isTested (scope : Scope) (p : Program) : FunctionKind → Bool
  | .declared package file name =>
    (p.file file).isTest && isTestEntry name && scope.testPackages.contains package
  | _ => false

/-- The functions that the start, or else the tests, lead to by name. -/
def isLed (scope : Scope) (p : Program) (c : FunctionId) : FunctionKind → Bool :=
  if c = rootFunction then scope.isStart else scope.isTested p

theorem isStart_iff {scope : Scope} {kind : FunctionKind} : scope.isStart kind = true ↔
    ∃ package file, kind = .declared package file "main" ∧ package ∈ scope.mains := by
  cases kind <;> simp [isStart]

theorem isTested_iff {scope : Scope} {kind : FunctionKind} : scope.isTested p kind = true ↔
    ∃ package file name, kind = .declared package file name ∧ (p.file file).isTest = true ∧
      isTestEntry name = true ∧ package ∈ scope.testPackages := by
  cases kind <;> simp [isTested, and_assoc]

theorem isDeclared_of_isTested {scope : Scope} (kind : FunctionKind)
    (h : scope.isTested p kind = true) : kind.isDeclared = true := by
  obtain ⟨package, file, name, rfl, -⟩ := isTested_iff.mp h
  rfl

end Scope

/-! ## edges from the start and from the tests -/

namespace CallGraph

variable {p : Program} {scope : Scope} {c f : FunctionId}

def targetsOf (g : CallGraph) (f : FunctionId) : List FunctionId :=
  (g.edges.filter (·.caller == f)).map (·.callee)

def kind? (g : CallGraph) (f : FunctionId) : Option FunctionKind := (g.functions[f]?).map (·.kind)

theorem flatMap_zipIdx (functions : List FunctionNode) (test : FunctionKind → Bool) :
    functions.zipIdx.flatMap (fun x => if test x.1.kind then [x.2] else []) =
      functionsWith functions test := by
  induction functions using List.reverseRecOn with
  | nil => rfl
  | append_singleton fs f ih =>
    rw [List.zipIdx_append, List.flatMap_append, ih, functionsWith_concat]
    simp

/-- Edges from the start of the program or of its tests do not come from items. -/
theorem filter_edges_items (hp : p.WellFormed) (hc : isSynthetic c = true) :
    ((Names.ofProgram p).2.flatMap fun x => (Names.ofProgram p).1.edgesOf x.1 x.2).filter
      (·.caller == c) = [] := by
  rw [List.filter_eq_nil_iff]
  intro e he hcaller
  obtain ⟨⟨i, bs⟩, hi, he⟩ := List.mem_flatMap.mp he
  have hi : i ∈ p.items := by
    rw [← Names.items_ofProgram]
    exact List.mem_map_of_mem hi
  have hother := (callerOf_edgesOf hp hi he).synthetic
  rw [beq_iff_eq.mp hcaller, hc] at hother
  cases hother

theorem wiring_from (hc : isSynthetic c = true) (id : FunctionId) (f : FunctionNode) :
    ((scope.wiring p id f).filter (·.caller == c)).map (·.callee) =
      if scope.isLed p c f.kind then [id] else [] := by
  have hedge : ∀ (a : FunctionId) (q : Bool),
      ((if q then [⟨a, id, none⟩] else [] : List Edge).filter (·.caller == c)).map (·.callee) =
        if a == c && q then [id] else [] := by
    intro a q
    cases q <;> cases ha : a == c <;> simp [ha]
  obtain ⟨kind, node⟩ := f
  cases kind with
  | declared package file name =>
    have hinit := hedge (initFunction package) (decide (name = "init"))
    simp only [decide_eq_true_eq] at hinit
    have hne : initFunction package ≠ rootFunction ∧ initFunction package ≠ testFunction :=
      ⟨(show (2 + package : Nat) ≠ 0 by omega), (show (2 + package : Nat) ≠ 1 by omega)⟩
    simp only [Scope.wiring, List.filter_append, List.map_append, hedge, hinit]
    rcases (Bool.or_eq_true _ _).mp hc with hc | hc <;> cases eq_of_beq hc
    · rw [beq_false_of_ne hne.1]
      simp [Scope.isLed, Scope.isStart, rootFunction, testFunction]
    · rw [beq_false_of_ne hne.2]
      simp [Scope.isLed, Scope.isTested, rootFunction, testFunction]
  | _ =>
    by_cases hroot : c = rootFunction <;>
      simp [Scope.wiring, Scope.isLed, hroot, Scope.isStart, Scope.isTested]

theorem map_callee_wiring (hc : isSynthetic c = true) :
    ((p.functions.zipIdx.flatMap fun x => scope.wiring p x.2 x.1).filter (·.caller == c)).map
      (·.callee) = functionsWith p.functions (scope.isLed p c) := by
  rw [List.filter_flatMap, List.map_flatMap, ← flatMap_zipIdx]
  simp only [wiring_from hc]

/-- The start leads to the tests, to the initialisation of the packages and to the main functions.
-/
theorem targetsOf_root (hp : p.WellFormed) : (build p scope).targetsOf rootFunction =
    testFunction :: (List.range p.packages.length).map initFunction ++
      functionsWith p.functions scope.isStart := by
  rw [targetsOf, edges_build, Names.functions_ofProgram, List.filter_append, List.filter_append,
    filter_edges_items hp rfl, List.append_nil, List.map_append, map_callee_wiring rfl]
  simp [List.filter_map, Function.comp_def, Scope.isLed]

theorem targetsOf_test (hp : p.WellFormed) : (build p scope).targetsOf testFunction =
    functionsWith p.functions (scope.isTested p) := by
  rw [targetsOf, edges_build, Names.functions_ofProgram, List.filter_append, List.filter_append,
    filter_edges_items hp rfl, List.append_nil, List.map_append, map_callee_wiring rfl]
  simp [List.filter_map, Function.comp_def, Scope.isLed, rootFunction, testFunction]

end CallGraph

/-! ## tests, by function and by package -/

def FunctionKind.declaredName : FunctionKind → String
  | .declared _ _ name => name
  | _ => ""

namespace Program

variable {p : Program} {scope : Scope} {base : List Component} {module : Option String}
  {parsed : List ParsedFile} {groups : List (List Component × String)}

/-- The names of the test functions in a file, which has none unless it is a test file. -/
def testNamesIn (p : Program) (file : FileId) : List String :=
  if (p.file file).isTest then (p.file file).functionNames.filter isTestEntry else []

theorem testNames_eq (p : Program) (pkg : Package) :
    Scope.testNames p pkg = pkg.files.flatMap p.testNamesIn := by
  rw [Scope.testNames, flatMap_filter_ite, List.flatMap_map]
  rfl

theorem Assembled.flatMap_files (h : Assembled base module parsed groups p) (q : PackageId → Bool) :
    ((List.range p.packages.length).filter q).flatMap (fun id => (p.package id).files) =
      (List.range p.files.length).filter fun i => q (p.file i).package := by
  have hall : (List.range p.packages.length).flatMap (fun id => (p.package id).files) =
      List.range p.files.length := by
    have hpackages : (List.range p.packages.length).map p.package = p.packages := by
      refine List.ext_getElem (by simp) fun i hi hi' => ?_
      rw [List.getElem_map, List.getElem_range, Program.package, List.getElem?_eq_getElem hi']
      rfl
    rw [← h.covered, ← List.flatMap_map p.package (·.files), hpackages]
  rw [← hall, List.filter_flatMap, flatMap_filter_ite]
  refine List.flatMap_congr fun id hid => ?_
  -- a package is in or out with all its files
  have hpackage : ∀ i ∈ (p.package id).files, (p.file i).package = id := by
    intro i hi
    have hlt : i ∈ List.range p.files.length := by
      rw [← hall]
      exact List.mem_flatMap.mpr ⟨id, hid, hi⟩
    exact (h.package_iff (List.mem_range.mp hlt) (List.mem_range.mp hid)).mpr hi
  cases hq : q id with
  | true => exact (List.filter_eq_self.mpr fun i hi => by rw [hpackage i hi, hq]).symm
  | false => exact (List.filter_eq_nil_iff.mpr fun i hi => by simp [hpackage i hi, hq]).symm

theorem map_name_declaredIn (p : Program) (scope : Scope) (file : FileId) :
    ((p.declaredIn file).filter fun f => scope.isTested p f.kind).map (·.kind.declaredName) =
      if scope.testPackages.contains (p.file file).package then p.testNamesIn file else [] := by
  have hnames :
      (if scope.testPackages.contains (p.file file).package then p.testNamesIn file else []) =
      (p.file file).tree.codeChildren.filterMap fun d =>
        if scope.testPackages.contains (p.file file).package && (p.file file).isTest &&
          decide (d.kind = .functionDeclaration) then
            (d.textIn? .name (p.file file).text).filter isTestEntry else none := by
    rw [testNamesIn, SourceFile.functionNames, List.filterMap_filter, List.filter_filterMap]
    cases scope.testPackages.contains (p.file file).package <;> cases (p.file file).isTest <;> simp
    refine List.filterMap_congr fun d _ => ?_
    split <;> rfl
  rw [hnames, declaredIn, List.filter_filterMap, List.map_filterMap]
  refine List.filterMap_congr fun d _ => ?_
  unfold declaredFunction?
  by_cases hfunction : d.kind = .functionDeclaration
  · cases hname : d.textIn? .name (p.file file).text with
    | none => simp [hfunction, hname]
    | some name =>
      by_cases htest : isTestEntry name = true <;>
        cases hpackage : scope.testPackages.contains (p.file file).package <;>
        cases hfile : (p.file file).isTest <;>
        simp_all [Option.filter, Scope.isTested, FunctionKind.declaredName]
  · by_cases hmethod : d.kind = .methodDeclaration
    · cases hname : d.textIn? .name (p.file file).text <;>
        simp [hmethod, hname, Option.filter, Scope.isTested]
    · simp [hfunction]

/-- The tests have the same names, and are as many, whether they are found by function or by
package. -/
theorem map_name_tested (h : Assembled base module parsed groups p) :
    (p.functions.filter fun f => (Scope.ofProgram p).isTested p f.kind).map (·.kind.declaredName) =
      (Scope.ofProgram p).testPackages.flatMap fun id => Scope.testNames p (p.package id) := by
  rw [p.filter_functions_declared Scope.isDeclared_of_isTested, List.map_flatMap]
  simp only [map_name_declaredIn, testNames_eq, Scope.testPackages_eq, List.contains_iff_mem]
  rw [← List.flatMap_assoc, h.flatMap_files, flatMap_filter_ite]
  refine List.flatMap_congr fun file hfile => ?_
  have hpackage : (p.file file).package ∈ List.range p.packages.length := by
    obtain ⟨q, hq, hmem⟩ := h.exists_package (List.mem_range.mp hfile)
    rw [(h.package_iff (List.mem_range.mp hfile) hq).mpr hmem]
    exact List.mem_range.mpr hq
  simp [List.mem_filter, List.mem_range.mp hpackage]

end Program

/-! ## functions by their kinds -/

namespace CallGraph

variable {p : Program} {scope : Scope} {f : FunctionId} {file : FileId} {name : String}

def IsNamed (g : CallGraph) (p : Program) (f : FunctionId) (file : FileId) (name : String) : Prop :=
  ∃ d, p.Declares ⟨file, d⟩ ∧ d.kind = .functionDeclaration ∧
    d.textIn? .name (p.file file).text = some name ∧ g.IsFunctionOf f ⟨file, d⟩

theorem kind?_eq_some {kind : FunctionKind} : (build p scope).kind? f = some kind ↔
    ∃ node, p.functions[f]? = some ⟨kind, node⟩ := by
  rw [kind?, functions_build, Option.map_eq_some_iff]
  constructor
  · rintro ⟨⟨_, node⟩, hf, rfl⟩
    exact ⟨node, hf⟩
  · rintro ⟨node, hf⟩
    exact ⟨_, hf, rfl⟩

theorem isNamed_of_declared (hp : p.WellFormed) {package : PackageId}
    (h : (build p scope).kind? f = some (.declared package file name)) :
    package = (p.file file).package ∧ (build p scope).IsNamed p f file name := by
  obtain ⟨node, hf⟩ := kind?_eq_some.mp h
  cases Program.tabled_of_mem hp (List.mem_of_getElem? hf) rfl with
  | function hdeclares hk hname =>
    exact ⟨rfl, _, hdeclares, hk, hname, _, by rw [functions_build]; exact hf, rfl, rfl⟩

theorem isNamed_iff (hp : p.WellFormed) : (build p scope).IsNamed p f file name ↔
    (build p scope).kind? f = some (.declared (p.file file).package file name) := by
  refine ⟨?_, fun h => (isNamed_of_declared hp h).2⟩
  rintro ⟨d, -, hk, hname, ⟨kind, node⟩, hf, hfile, hnode⟩
  rw [functions_build] at hf
  have htabled := Program.tabled_of_mem hp (List.mem_of_getElem? hf) hfile
  cases hnode
  cases htabled with
  | function hdeclares hk' hname' =>
    cases hfile
    cases hname.symm.trans hname'
    exact kind?_eq_some.mpr ⟨some d, hf⟩
  | method hdeclares hk' hname' => cases hk.symm.trans hk'
  | literal hd hl hk' => cases hk.symm.trans hk'

theorem eq_testFunction (h : (build p scope).kind? f = some .testMain) : f = testFunction := by
  obtain ⟨node, hf⟩ := kind?_eq_some.mp h
  rw [Program.functions_eq] at hf
  rcases f with _ | _ | f
  · cases hf
  · rfl
  · rw [List.getElem?_cons_succ, List.getElem?_cons_succ] at hf
    have hmem := List.mem_of_getElem? hf
    simp only [List.mem_append, List.mem_map, List.mem_flatMap] at hmem
    rcases hmem with (⟨id, -, hkind⟩ | ⟨file, -, hmem⟩) | ⟨i, -, hmem⟩
    · cases hkind
    · obtain ⟨_, -, -, -, hfile, -⟩ := Program.mem_declaredIn hmem
      cases hfile
    · obtain ⟨_, -, -, hkind⟩ := Program.mem_literalsIn hmem
      cases hkind

theorem kind?_packageInit {id : PackageId} : (build p scope).kind? f = some (.packageInit id) ↔
    id < p.packages.length ∧ f = initFunction id := by
  rw [kind?_eq_some]
  constructor
  · rintro ⟨node, hf⟩
    have hmem := List.mem_of_getElem? hf
    rw [Program.functions_eq] at hmem
    simp only [List.mem_cons, List.mem_append, List.mem_map, List.mem_flatMap, List.mem_range]
      at hmem
    rcases hmem with hkind | hkind | (⟨id', hid, hkind⟩ | ⟨file, -, hmem⟩) | ⟨i, -, hmem⟩
    · cases hkind
    · cases hkind
    · cases hkind
      exact ⟨hid, Program.eq_initFunction hf⟩
    · obtain ⟨_, -, -, -, hfile, -⟩ := Program.mem_declaredIn hmem
      cases hfile
    · obtain ⟨_, -, -, hkind⟩ := Program.mem_literalsIn hmem
      cases hkind
  · rintro ⟨hid, rfl⟩
    exact ⟨none, Program.functions_init hid⟩

theorem mem_functionsWith_kind (scope : Scope) {test : FunctionKind → Bool} :
    f ∈ functionsWith p.functions test ↔
    ∃ kind, (build p scope).kind? f = some kind ∧ test kind = true := by
  rw [Names.mem_functionsWith]
  constructor
  · rintro ⟨⟨kind, node⟩, hf, htest⟩
    exact ⟨kind, kind?_eq_some.mpr ⟨node, hf⟩, htest⟩
  · rintro ⟨kind, hkind, htest⟩
    obtain ⟨node, hf⟩ := kind?_eq_some.mp hkind
    exact ⟨_, hf, htest⟩

/-! ## the scope and the edges agree -/


/-- The scope of a program, and the edges from the start of the program and of its tests. -/
structure Starts (g : CallGraph) (p : Program) (scope : Scope) : Prop where
  /-- The tests lead to the test functions in test files of packages with tests. -/
  tests : ∀ f, f ∈ g.targetsOf testFunction ↔ ∃ file name, g.IsNamed p f file name ∧
    (p.file file).path.fileName?.any (Program.endsWith · "_test.go") = true ∧
      isTestEntry name = true ∧
    (p.file file).package ∈ scope.testPackages
  tests_once : (g.targetsOf testFunction).Nodup
  count : (g.targetsOf testFunction).length = scope.testFunctions
  /-- The start leads to the tests, the initialisation of the packages and the main functions. -/
  start : ∀ f, f ∈ g.targetsOf rootFunction ↔ g.kind? f = some .testMain ∨
    (∃ id, g.kind? f = some (.packageInit id)) ∨
    ∃ file, g.IsNamed p f file "main" ∧ (p.file file).package ∈ scope.mains
  start_once : (g.targetsOf rootFunction).Nodup
  kinds : g.kind? rootFunction = some .root ∧ g.kind? testFunction = some .testMain ∧
    ∀ id < p.packages.length, ∃ f, g.kind? f = some (.packageInit id)
  main : ∀ id ∈ scope.mains, ∃ f file, g.IsNamed p f file "main" ∧ (p.file file).package = id
  /-- The packages that the user named, each of them in one of the two sorts. -/
  packages : ∀ id, id ∈ scope.mains ++ scope.testPackages ↔
    id < p.packages.length ∧ (p.package id).initial = true
  packages_once : (scope.mains ++ scope.testPackages).Nodup

theorem mem_targetsOf_test (hp : p.WellFormed) : f ∈ (build p scope).targetsOf testFunction ↔
    ∃ file name, (build p scope).IsNamed p f file name ∧ (p.file file).isTest = true ∧
      isTestEntry name = true ∧ (p.file file).package ∈ scope.testPackages := by
  rw [targetsOf_test hp, mem_functionsWith_kind scope]
  constructor
  · rintro ⟨kind, hkind, htested⟩
    obtain ⟨package, file, name, rfl, htest, hname, hpackage⟩ := Scope.isTested_iff.mp htested
    obtain ⟨rfl, hnamed⟩ := isNamed_of_declared hp hkind
    exact ⟨file, name, hnamed, htest, hname, hpackage⟩
  · rintro ⟨file, name, hnamed, htest, hname, hpackage⟩
    exact ⟨_, (isNamed_iff hp).mp hnamed,
      Scope.isTested_iff.mpr ⟨_, _, _, rfl, htest, hname, hpackage⟩⟩

theorem mem_functionsWith_start (hp : p.WellFormed) : f ∈ functionsWith p.functions scope.isStart ↔
    ∃ file, (build p scope).IsNamed p f file "main" ∧ (p.file file).package ∈ scope.mains := by
  rw [mem_functionsWith_kind scope]
  constructor
  · rintro ⟨kind, hkind, hstart⟩
    obtain ⟨package, file, rfl, hpackage⟩ := Scope.isStart_iff.mp hstart
    obtain ⟨rfl, hnamed⟩ := isNamed_of_declared hp hkind
    exact ⟨file, hnamed, hpackage⟩
  · rintro ⟨file, hnamed, hpackage⟩
    exact ⟨_, (isNamed_iff hp).mp hnamed, Scope.isStart_iff.mpr ⟨_, _, rfl, hpackage⟩⟩

theorem kind?_testFunction : (build p scope).kind? testFunction = some .testMain :=
  kind?_eq_some.mpr ⟨none, by rw [Program.functions_eq]; rfl⟩

theorem mem_targetsOf_root (hp : p.WellFormed) : f ∈ (build p scope).targetsOf rootFunction ↔
    (build p scope).kind? f = some .testMain ∨
    (∃ id, (build p scope).kind? f = some (.packageInit id)) ∨
    ∃ file, (build p scope).IsNamed p f file "main" ∧ (p.file file).package ∈ scope.mains := by
  rw [targetsOf_root hp, List.mem_append, List.mem_cons, mem_functionsWith_start hp, or_assoc]
  refine or_congr ?_ (or_congr_left ?_)
  · exact ⟨fun h => h ▸ kind?_testFunction, eq_testFunction⟩
  · simp only [List.mem_map, List.mem_range, kind?_packageInit]
    exact exists_congr fun id => and_congr_right fun _ => eq_comm

theorem nodup_targetsOf_root (hp : p.WellFormed) :
    ((build p scope).targetsOf rootFunction).Nodup := by
  rw [targetsOf_root hp]
  refine List.nodup_append.mpr ⟨List.nodup_cons.mpr ⟨?_, ?_⟩, List.nodup_range.filter _, ?_⟩
  · rw [List.mem_map]
    rintro ⟨id, -, hid⟩
    exact Nat.ne_of_gt (Nat.lt_add_right id Nat.one_lt_two) hid
  · refine List.nodup_range.map_on fun id _ id' _ heq => ?_
    exact Nat.add_left_cancel heq
  · -- a main function is neither the tests nor the initialisation of a package
    rintro f hf f' hf' rfl
    obtain ⟨file, hnamed, -⟩ := (mem_functionsWith_start hp).mp hf'
    have hkind := (isNamed_iff hp).mp hnamed
    rcases List.mem_cons.mp hf with rfl | hf
    · cases hkind.symm.trans kind?_testFunction
    · obtain ⟨id, hid, rfl⟩ := List.mem_map.mp hf
      cases hkind.symm.trans (kind?_packageInit.mpr ⟨List.mem_range.mp hid, rfl⟩)

section
variable {base : List Component} {module : Option String} {parsed : List ParsedFile}
  {groups : List (List Component × String)}

theorem length_targetsOf_test (hp : p.WellFormed)
    (h : Program.Assembled base module parsed groups p) :
    ((build p (Scope.ofProgram p)).targetsOf testFunction).length =
      (Scope.ofProgram p).testFunctions := by
  have hcount :
      (Scope.ofProgram p).testFunctions = ((Scope.ofProgram p).testPackages.flatMap fun id =>
      Scope.testNames p (p.package id)).length := by
    rw [Scope.ofProgram_eq]
  rw [targetsOf_test hp, (forall₂_functionsWith _ _).length_eq, hcount, ← Program.map_name_tested h,
    List.length_map]

theorem exists_main (hp : p.WellFormed) (h : Program.Assembled base module parsed groups p)
    {id : PackageId} (hid : id ∈ (Scope.ofProgram p).mains) :
    ∃ f file, (build p scope).IsNamed p f file "main" ∧ (p.file file).package = id := by
  obtain ⟨hlt, -, hmain⟩ := Scope.mem_mains.mp hid
  simp only [Scope.isMain, Bool.and_eq_true, List.any_eq_true, List.contains_iff_mem] at hmain
  obtain ⟨-, file, hfile, hname⟩ := hmain
  obtain ⟨d, hd, hname⟩ := List.mem_filterMap.mp hname
  obtain ⟨hd, hk⟩ := List.mem_filter.mp hd
  have hk : d.kind = .functionDeclaration := of_decide_eq_true hk
  have hlength : file < p.files.length := by
    rw [← List.mem_range, ← h.covered]
    refine List.mem_flatMap.mpr ⟨p.package id, ?_, hfile⟩
    rw [Program.package, List.getElem?_eq_getElem hlt]
    exact List.getElem_mem hlt
  have hdecl : d.isDeclaration = true := by rw [Node.isDeclaration_eq, hk]; rfl
  have hdeclares : p.Declares ⟨file, d⟩ := ⟨hlength, (List.mem_filter.mp hd).1, hdecl⟩
  obtain ⟨f, hf, hkind, hnode, -⟩ := Program.declared_mem hp hlength hdeclares.child hdecl
  obtain ⟨i, hi⟩ := List.getElem?_of_mem hf
  exact ⟨i, file, ⟨d, hdeclares, hk, hname, f, by rw [functions_build]; exact hi, hkind, hnode⟩,
    (h.package_iff hlength hlt).mpr hfile⟩

end

/-- There is something to analyse just if a declared function is reached by an edge from the start
of the program or of its tests. -/
theorem hasRoots_iff (hp : p.WellFormed) (h : (build p scope).Starts p scope) :
    scope.hasRoots = true ↔ ∃ f file name, (build p scope).IsNamed p f file name ∧
      (f ∈ (build p scope).targetsOf rootFunction ∨
        f ∈ (build p scope).targetsOf testFunction) := by
  rw [Scope.hasRoots, Bool.or_eq_true, Bool.not_eq_true', List.isEmpty_eq_false_iff,
    decide_eq_true_eq]
  constructor
  · rintro (hmains | htests)
    · obtain ⟨id, hid⟩ := List.exists_mem_of_ne_nil _ hmains
      obtain ⟨f, file, hnamed, rfl⟩ := h.main id hid
      exact ⟨f, file, "main", hnamed, .inl ((h.start f).mpr (.inr (.inr ⟨file, hnamed, hid⟩)))⟩
    · rw [← h.count] at htests
      obtain ⟨f, hf⟩ := List.exists_mem_of_length_pos htests
      obtain ⟨file, name, hnamed, -⟩ := (h.tests f).mp hf
      exact ⟨f, file, name, hnamed, .inr hf⟩
  · rintro ⟨f, file, name, hnamed, hf | hf⟩
    · left
      have hkind := (isNamed_iff hp).mp hnamed
      rcases (h.start f).mp hf with htest | ⟨id, hinit⟩ | ⟨file', -, hid⟩
      · cases hkind.symm.trans htest
      · cases hkind.symm.trans hinit
      · exact List.ne_nil_of_mem hid
    · right
      rw [← h.count]
      exact List.length_pos_of_mem hf

end CallGraph

theorem ParsedFile.isTest_ofText {path canonical : Path} {text : String} {initial : Bool}
    {f : ParsedFile} (h : ofText path canonical text initial = .ok f) :
    f.isTest = f.path.fileName?.any (Program.endsWith · "_test.go") := by
  obtain ⟨tree, name, -, -, rfl⟩ := ofText_eq_ok.mp h
  rfl

namespace CallGraph

variable {p : Program}

/-- The analysis begins where the edges from the start of the program and of its tests lead. -/
theorem build_starts (h : p.Loaded) :
    (build p (Scope.ofProgram p)).Starts p (Scope.ofProgram p) ∧
    (ofProgram p = .error .noAnalysisRoot ↔
      ¬ ∃ f file name, (build p (Scope.ofProgram p)).IsNamed p f file name ∧
        (f ∈ (build p (Scope.ofProgram p)).targetsOf rootFunction ∨
          f ∈ (build p (Scope.ofProgram p)).targetsOf testFunction)) := by
  have hp := h.wellFormed
  obtain ⟨parsed, base, module, hparsed, heq⟩ := h.exists_assemble ParsedFile.isTest_ofText
  have hassembled := Program.assembled_assemble parsed base module
  rw [← heq] at hassembled
  have htest : ∀ {f file name}, (build p (Scope.ofProgram p)).IsNamed p f file name →
      (p.file file).isTest = (p.file file).path.fileName?.any (Program.endsWith · "_test.go") := by
    rintro f file name ⟨d, hdeclares, -⟩
    obtain ⟨g, hg, -, hfile⟩ := hassembled.exists_file hdeclares.file
    rw [hfile]
    exact hparsed g hg
  have hstarts : (build p (Scope.ofProgram p)).Starts p (Scope.ofProgram p) := by
    refine ⟨fun f => ?_, ?_, length_targetsOf_test hp hassembled, fun f => mem_targetsOf_root hp,
      nodup_targetsOf_root hp, ⟨?_, kind?_testFunction, fun id hid => ?_⟩,
      fun id hid => exists_main hp hassembled hid, fun id => ?_, ?_⟩
    · rw [mem_targetsOf_test hp]
      refine exists_congr fun file => exists_congr fun name => and_congr_right fun hnamed => ?_
      rw [htest hnamed]
    · rw [targetsOf_test hp]
      exact List.nodup_range.filter _
    · exact kind?_eq_some.mpr ⟨none, by rw [Program.functions_eq]; rfl⟩
    · exact ⟨initFunction id, kind?_packageInit.mpr ⟨hid, rfl⟩⟩
    · rw [List.mem_append, Scope.mem_mains, Scope.mem_testPackages]
      cases Scope.isMain p (p.package id) <;> simp
    · rw [Scope.ofProgram_eq]
      have hnodup : (Scope.initials p).Nodup := List.nodup_range.filter _
      refine List.nodup_append.mpr ⟨hnodup.filter _, hnodup.filter _, ?_⟩
      rintro id hid id' hid' rfl
      have hother := (List.mem_filter.mp hid').2
      rw [(List.mem_filter.mp hid).2] at hother
      cases hother
  refine ⟨hstarts, ?_⟩
  rw [← hasRoots_iff hp hstarts, ofProgram]
  cases (Scope.ofProgram p).hasRoots <;> simp

end CallGraph

/-- A package with a test in a test file; a function `main` outside of a main package, a test
outside of a test file and a name that goes on with a small letter are nothing to begin with. -/
def testedSources : List (Path × String) :=
  [(⟨"x.go"⟩, "package x\nfunc main() \x7b\x7d\nfunc TestC() \x7b\x7d\n"),
    (⟨"x_test.go"⟩, "package x\nfunc TestA() \x7b\x7d\nfunc Testb() \x7b\x7d\n")]

/-- The tests lead to the one test, and the start to the tests and to the initialisation of the
package. -/
theorem CallGraph.build_starts_tested :
    ∃ p, Program.ofSources (fun _ => none) testedSources = .ok p ∧
    Scope.ofProgram p = ⟨[], [0], 1⟩ ∧
    (build p (Scope.ofProgram p)).targetsOf rootFunction = [testFunction, initFunction 0] ∧
    (build p (Scope.ofProgram p)).targetsOf testFunction = [5] ∧
    (build p (Scope.ofProgram p)).kind? 5 = some (.declared 0 1 "TestA") ∧
    (build p (Scope.ofProgram p)).Starts p (Scope.ofProgram p) := by
  have hchecked : ∃ p, Program.ofSources (fun _ => none) testedSources = .ok p ∧
      (Scope.ofProgram p == ⟨[], [0], 1⟩ &&
        (build p (Scope.ofProgram p)).targetsOf rootFunction == [testFunction, initFunction 0] &&
        (build p (Scope.ofProgram p)).targetsOf testFunction == [5] &&
        (build p (Scope.ofProgram p)).kind? 5 == some (.declared 0 1 "TestA")) = true :=
    Program.ofSources_pair (by decide +kernel)
  obtain ⟨p, hp, hchecked⟩ := hchecked
  simp only [Bool.and_eq_true, beq_iff_eq] at hchecked
  obtain ⟨⟨⟨hscope, hroot⟩, htests⟩, hkind⟩ := hchecked
  exact ⟨p, hp, hscope, hroot, htests, hkind, (build_starts (.sources hp)).1⟩

end ParamThreading
