import Mathlib.Data.Nat.Find
import ParamThreading.Program.Imports
import ParamThreading.Proofs.Assembly

/-!
# Which package an import path leads to

The program lies in a module. The import path of a package is that of its directory in the module. A
path leads to the first package that has it, unless it ends as those of tests do; a path that no
package has leads to the first package of which one path ends in the other.

* `Program.moduleOf?`, `Program.load_eq_assemble`  the module that a program is loaded under;
* `Program.packageByImportPath?_eq_some`, `Program.packageByImportPath?_eq_none`  where a path
  leads;
* `Program.Exact`, `Program.exact_iff`  the paths that lead to the package that Go finds, and to no
  other;
* `Program.load_resolves`  import paths in a module.
-/

namespace ParamThreading

namespace Program

/-! ## the module of a program -/

/-- The module that a program of some targets lies in: that of the first one. -/
def moduleOf? (d : Disk) (targets : List String) : Option Module :=
  let first := ((if targets.isEmpty then ["."] else targets).head?.getD ".").toList
  let start := Loading.withoutDots first.length first
  Module.find? d ⟨if start.isEmpty then "." else String.ofList start⟩

theorem load_eq_assemble {d : Disk} {targets : List String} {options : LoadOptions} {p : Program}
    {m : Module} (h : load d targets options = .ok p) (hm : moduleOf? d targets = some m) :
    ∃ parsed, p = assemble parsed (Path.ofPlace m.directory).components (some m.path) := by
  unfold load at h
  unfold moduleOf? at hm
  dsimp only at h hm
  generalize (if targets.isEmpty then ["."] else targets) = targets at h hm
  obtain ⟨w, -, h⟩ := bind_eq_ok.mp h
  obtain ⟨files, -, h⟩ := bind_eq_ok.mp h
  split at h
  · cases h
  · obtain ⟨parsed, -, h⟩ := bind_eq_ok.mp h
    rw [hm] at h
    dsimp only at h
    split at h
    · obtain ⟨w', -, h⟩ := bind_eq_ok.mp h
      obtain ⟨more, -, h⟩ := bind_eq_ok.mp h
      cases h
      exact ⟨parsed ++ more, rfl⟩
    · cases h
      exact ⟨parsed, rfl⟩

/-! ## packages that can be imported -/

section
variable {p : Program} {s t : String} {id : PackageId}

/-- A package of tests beside the package that they test: its name ends in `_test`, and it has no
other files than tests. -/
def isExternal (p : Program) (id : PackageId) : Bool :=
  endsWith (p.package id).name "_test" && (p.package id).files.all fun i => (p.file i).isTest

/-- A package that Go lets others import. -/
structure Importable (p : Program) (id : PackageId) : Prop where
  loaded : id < p.packages.length
  name : (p.package id).name ≠ "main"
  external : p.isExternal id = false

abbrev pathOf (p : Program) (id : PackageId) : String := (p.package id).importPath

/-- The only package that an import path leads to is one with this path that can be imported. -/
def Exact (p : Program) (s : String) : Prop :=
  ∀ id, p.packageByImportPath? s = some id ↔ p.Importable id ∧ p.pathOf id = s

/-- Neither of the paths is a test path, and one of them ends in the other. -/
structure Overlaps (p : Program) (s : String) (id : PackageId) : Prop where
  library : endsWith (p.pathOf id) "_test" = false
  named : p.pathOf id ≠ "."
  ends : endsWith s ("/" ++ p.pathOf id) = true ∨ endsWith (p.pathOf id) ("/" ++ s) = true

theorem endsWith_iff : endsWith s t = true ↔ t.toList <:+ s.toList := List.isSuffixOf_iff_suffix

theorem endsWith_test (h : endsWith s ("/" ++ t) = true) :
    endsWith s "_test" = endsWith t "_test" := by
  have hslash : ("/" ++ t).toList = '/' :: t.toList := String.toList_append
  rw [endsWith_iff, hslash] at h
  rw [Bool.eq_iff_iff, endsWith_iff, endsWith_iff]
  refine ⟨fun hs => ?_, fun ht => ht.trans ((List.suffix_cons _ _).trans h)⟩
  rcases List.suffix_or_suffix_of_suffix hs h with htest | hseparator
  · rcases List.suffix_cons_iff.mp htest with heq | htest
    · have hhead : some '_' = some '/' := congrArg List.head? heq
      exact absurd hhead (by decide)
    · exact htest
  · -- there is no separator in the ending
    have hmem : '/' ∈ "_test".toList := hseparator.subset List.mem_cons_self
    exact absurd hmem (by decide)

theorem Overlaps.endsWith_eq_false (h : p.Overlaps s id) : endsWith s "_test" = false := by
  rcases h.ends with hends | hends
  · rw [endsWith_test hends, h.library]
  · rw [← endsWith_test hends, h.library]

structure First (p : Program) (among : PackageId → Prop) (id : PackageId) : Prop where
  loaded : id < p.packages.length
  holds : among id
  least : ∀ j < id, ¬ among j

theorem findIdx?_eq_some_iff {test : Package → Bool} {among : PackageId → Prop}
    (h : ∀ id < p.packages.length, test (p.package id) = true ↔ among id) :
    p.packages.findIdx? test = some id ↔ p.First among id := by
  have hpackage : ∀ j (hj : j < p.packages.length), p.packages[j] = p.package j := by
    intro j hj
    rw [package, List.getElem?_eq_getElem hj]
    rfl
  rw [List.findIdx?_eq_some_iff_getElem]
  constructor
  · rintro ⟨hlt, htest, hleast⟩
    refine ⟨hlt, (h id hlt).mp (hpackage id hlt ▸ htest), fun j hj hamong => ?_⟩
    exact hleast j hj (hpackage j _ ▸ (h j (hj.trans hlt)).mpr hamong)
  · rintro ⟨hlt, hamong, hleast⟩
    refine ⟨hlt, hpackage id hlt ▸ (h id hlt).mpr hamong, fun j hj htest => ?_⟩
    exact hleast j hj ((h j (hj.trans hlt)).mp (hpackage j _ ▸ htest))

theorem findIdx?_eq_none_iff {test : Package → Bool} {among : PackageId → Prop}
    (h : ∀ id < p.packages.length, test (p.package id) = true ↔ among id) :
    p.packages.findIdx? test = none ↔ ∀ id < p.packages.length, ¬ among id := by
  rw [List.findIdx?_eq_none_iff]
  constructor
  · intro hnone id hid hamong
    have htest := hnone _ (List.getElem_mem hid)
    have hpackage : p.packages[id] = p.package id := by
      rw [package, List.getElem?_eq_getElem hid]
      rfl
    rw [hpackage, (h id hid).mpr hamong] at htest
    cases htest
  · intro hnone q hq
    obtain ⟨id, hid, rfl⟩ := List.getElem_of_mem hq
    have hpackage : p.packages[id] = p.package id := by
      rw [package, List.getElem?_eq_getElem hid]
      rfl
    rw [hpackage, ← Bool.not_eq_true]
    exact fun htest => hnone id hid ((h id hid).mp htest)

/-! ## where a path leads -/

theorem overlaps_iff : (isLibrary (p.package id) && (p.package id).importPath != "." &&
    (endsWith s ("/" ++ (p.package id).importPath) ||
      endsWith (p.package id).importPath ("/" ++ s))) = true ↔ p.Overlaps s id := by
  simp only [isLibrary, Bool.and_eq_true, Bool.not_eq_true', bne_iff_ne, Bool.or_eq_true]
  exact ⟨fun h => ⟨h.1.1, h.1.2, h.2⟩, fun h => ⟨⟨h.library, h.named⟩, h.ends⟩⟩

theorem library_iff : (isLibrary (p.package id) && (p.package id).importPath == s) = true ↔
    endsWith s "_test" = false ∧ p.pathOf id = s := by
  simp only [isLibrary, Bool.and_eq_true, Bool.not_eq_true', beq_iff_eq]
  constructor
  · rintro ⟨hlibrary, rfl⟩
    exact ⟨hlibrary, rfl⟩
  · rintro ⟨hlibrary, rfl⟩
    exact ⟨hlibrary, rfl⟩

theorem packageByImportPath?_test (hs : endsWith s "_test" = true) :
    p.packageByImportPath? s = none := by
  rw [packageByImportPath?, Option.or_eq_none_iff,
    findIdx?_eq_none_iff (fun _ _ => library_iff), findIdx?_eq_none_iff (fun _ _ => overlaps_iff)]
  refine ⟨fun id _ h => ?_, fun id _ h => ?_⟩
  · rw [hs] at h
    cases h.1
  · rw [h.endsWith_eq_false] at hs
    cases hs

/-- A path that some package has leads to the first one. -/
theorem packageByImportPath?_own (hs : endsWith s "_test" = false)
    (h : ∃ j < p.packages.length, p.pathOf j = s) :
    p.packageByImportPath? s = some id ↔ p.First (fun j => p.pathOf j = s) id := by
  have hiff : ∀ j < p.packages.length,
      (isLibrary (p.package j) && (p.package j).importPath == s) = true ↔ p.pathOf j = s :=
    fun j _ => library_iff.trans (and_iff_right hs)
  obtain ⟨j, hj, hpath⟩ := h
  cases hfound : p.packages.findIdx? fun q => isLibrary q && q.importPath == s with
  | none => exact absurd hpath ((findIdx?_eq_none_iff hiff).mp hfound j hj)
  | some first =>
    rw [packageByImportPath?, hfound, Option.some_or, ← hfound, findIdx?_eq_some_iff hiff]

/-- Any other path leads to the first package that it overlaps with. -/
theorem packageByImportPath?_other (h : ∀ j < p.packages.length, p.pathOf j ≠ s) :
    p.packageByImportPath? s = some id ↔ p.First (p.Overlaps s) id := by
  have hnone : (p.packages.findIdx? fun q => isLibrary q && q.importPath == s) = none :=
    (findIdx?_eq_none_iff fun _ _ => library_iff).mpr fun j hj hpath => h j hj hpath.2
  rw [packageByImportPath?, hnone, Option.none_or, findIdx?_eq_some_iff fun _ _ => overlaps_iff]

theorem exists_first {among : PackageId → Prop} {j : PackageId} (hj : j < p.packages.length)
    (h : among j) : ∃ id, p.First among id := by
  classical
  have hex : ∃ k, among k := ⟨j, h⟩
  exact ⟨Nat.find hex, (Nat.find_min' hex h).trans_lt hj, Nat.find_spec hex,
    fun _ hk => Nat.find_min hex hk⟩

/-- Nothing stands in the way of an import path: no package that can be imported has the path of a
test, the first package of the path is the only one that can be imported, and no other package is
near to the path. -/
structure Clear (p : Program) (s : String) : Prop where
  tests : endsWith s "_test" = true → ∀ id, p.Importable id → p.pathOf id ≠ s
  own : endsWith s "_test" = false → (∃ j < p.packages.length, p.pathOf j = s) →
    ∃ id, p.First (fun j => p.pathOf j = s) id ∧ p.Importable id ∧
      ∀ k, p.Importable k → p.pathOf k = s → k = id
  other : (∀ j < p.packages.length, p.pathOf j ≠ s) → ∀ id < p.packages.length, ¬ p.Overlaps s id

theorem exact_iff (p : Program) (s : String) : p.Exact s ↔ p.Clear s := by
  constructor
  · intro h
    refine ⟨fun hs id hid hpath => ?_, fun hs hex => ?_, fun hnone id hid hoverlaps => ?_⟩
    · have hfound := (h id).mpr ⟨hid, hpath⟩
      rw [packageByImportPath?_test hs] at hfound
      cases hfound
    · obtain ⟨j, hj, hpath⟩ := hex
      obtain ⟨id, hfirst⟩ : ∃ id, p.First (fun j => p.pathOf j = s) id := exists_first hj hpath
      have hfound := (packageByImportPath?_own hs ⟨j, hj, hpath⟩).mpr hfirst
      refine ⟨id, hfirst, ((h id).mp hfound).1, fun k hk hkpath => ?_⟩
      exact Option.some.inj (((h k).mpr ⟨hk, hkpath⟩).symm.trans hfound)
    · obtain ⟨first, hfirst⟩ := exists_first hid hoverlaps
      have hfound := (packageByImportPath?_other hnone).mpr hfirst
      exact hnone first hfirst.loaded ((h first).mp hfound).2
  · intro h id
    cases hs : endsWith s "_test" with
    | true =>
      rw [packageByImportPath?_test hs]
      exact ⟨nofun, fun hid => absurd hid.2 (h.tests hs id hid.1)⟩
    | false =>
      by_cases hex : ∃ j < p.packages.length, p.pathOf j = s
      · obtain ⟨first, hfirst, himportable, honly⟩ := h.own hs hex
        have hfound := (packageByImportPath?_own hs hex).mpr hfirst
        rw [hfound, Option.some.injEq]
        constructor
        · rintro rfl
          exact ⟨himportable, hfirst.holds⟩
        · rintro ⟨hid, hpath⟩
          exact (honly id hid hpath).symm
      · have hnone : ∀ j < p.packages.length, p.pathOf j ≠ s := fun j hj hpath => hex ⟨j, hj, hpath⟩
        rw [packageByImportPath?_other hnone]
        constructor
        · intro hfirst
          exact absurd hfirst.holds (h.other hnone id hfirst.loaded)
        · rintro ⟨hid, hpath⟩
          exact absurd hpath (hnone id hid.loaded)

end

/-! ## import paths in a module -/

end Program

def Module.Outside (m : Module) (s : String) : Prop :=
  s ≠ m.path ∧ ¬ (m.path ++ "/").toList <+: s.toList

namespace Program

section
variable {p : Program} {base : List Component} {parsed : List ParsedFile}
  {groups : List (List Component × String)} {id : PackageId} {m : Module}

/-- The import path of a package is that of its directory, with an ending for packages of tests. -/
theorem Assembled.pathOf_eq {module : Option String} (h : Assembled base module parsed groups p)
    (hid : id < p.packages.length) {i : FileId} (hi : i ∈ (p.package id).files) :
    p.pathOf id = importPathOf base module (p.file i).directory ++
      (if p.isExternal id then "_test" else "") := by
  obtain ⟨group, first, hgroup, hpackage, -⟩ := h.package_eq hid
  obtain ⟨group', hgroup', -, hfiles⟩ := h.files_eq hid
  cases hgroup.symm.trans hgroup'
  obtain ⟨group', f, hgroup', -, hf, hfile⟩ := h.exists_of_mem hid hi
  cases hgroup.symm.trans hgroup'
  have hdirectory : (p.file i).directory = group.1 := by
    rw [hfile, ← hf]
    rfl
  have htests : ((p.package id).files.all fun i => (p.file i).isTest) =
      (membersOf parsed group).all (·.isTest) := by
    have hmap : ((p.package id).files.all fun i => (p.file i).isTest) =
        ((p.package id).files.map p.file).all (·.isTest) := by
      rw [List.all_map]
      rfl
    rw [hmap, hfiles, List.all_map]
    rfl
  show (p.package id).importPath = _
  rw [isExternal, htests, hpackage, hdirectory]
  rfl

theorem Assembled.files_ne_nil {module : Option String}
    (h : Assembled base module parsed (Program.groups parsed) p) (hid : id < p.packages.length) :
    (p.package id).files ≠ [] := by
  obtain ⟨group, hgroup, -, hfiles⟩ := h.files_eq hid
  obtain ⟨f, hf, hfgroup⟩ := mem_groups.mp (List.mem_of_getElem? hgroup)
  intro hnil
  rw [hnil, List.map_nil] at hfiles
  exact List.ne_nil_of_mem (mem_membersOf.mpr ⟨hf, hfgroup⟩) (List.map_eq_nil_iff.mp hfiles.symm)

theorem not_outside_importPathOf (m : Module) (base dir : List Component) :
    ¬ m.Outside (importPathOf base (some m.path) dir) := by
  rintro ⟨hne, hbelow⟩
  unfold importPathOf at hne hbelow
  dsimp only at hne hbelow
  cases hrel : (Component.joined (withoutBase base dir)).isEmpty with
  | true =>
    rw [hrel] at hne
    exact hne rfl
  | false =>
    rw [hrel] at hbelow
    refine hbelow ⟨(Component.joined (withoutBase base dir)).toList, ?_⟩
    exact String.toList_append.symm

/-- The packages of a module are in it, but for packages of tests. -/
theorem Assembled.external_of_outside
    (h : Assembled base (some m.path) parsed (Program.groups parsed) p)
    (hid : id < p.packages.length)
    (hm : m.Outside (p.pathOf id)) : p.isExternal id = true := by
  obtain ⟨i, hi⟩ := List.exists_mem_of_ne_nil _ (h.files_ne_nil hid)
  have hpath := h.pathOf_eq hid hi
  cases hexternal : p.isExternal id with
  | true => rfl
  | false =>
    rw [hexternal, if_neg Bool.false_ne_true, String.append_empty] at hpath
    rw [hpath] at hm
    exact absurd hm (not_outside_importPathOf m base _)

theorem Assembled.endsWith_of_external {module : Option String}
    (h : Assembled base module parsed (Program.groups parsed) p) (hid : id < p.packages.length)
    (hexternal : p.isExternal id = true) : endsWith (p.pathOf id) "_test" = true := by
  obtain ⟨i, hi⟩ := List.exists_mem_of_ne_nil _ (h.files_ne_nil hid)
  rw [h.pathOf_eq hid hi, hexternal, if_pos rfl, endsWith_iff, String.toList_append]
  exact List.suffix_append _ _

/-- Import paths of a program in a module. -/
structure ResolvesIn (p : Program) (m : Module) : Prop where
  /-- A package has the path of its directory, with an ending for packages of tests. -/
  paths : ∀ id < p.packages.length, (p.package id).files ≠ [] ∧ ∀ i ∈ (p.package id).files,
    p.pathOf id = importPathOf (Path.ofPlace m.directory).components (some m.path)
      (p.file i).directory ++ (if p.isExternal id then "_test" else "")
  exact : ∀ s, p.Exact s ↔ p.Clear s
  /-- A package that can be imported is found under its path, unless this is taken for the path of a
  test or a package in front of it has the same path. -/
  found : ∀ id, p.Importable id → (p.packageByImportPath? (p.pathOf id) = some id ↔
    endsWith (p.pathOf id) "_test" = false ∧ ∀ j < id, p.pathOf j ≠ p.pathOf id)
  /-- A path outside the module leads into the program just if it overlaps with the path of a
  package. -/
  outside : ∀ s, m.Outside s → (p.Exact s ↔ ∀ id < p.packages.length, ¬ p.Overlaps s id)
  foreign : ∀ file name spec, (p.file file).imports.find? (p.importAnswers name) = some spec →
    m.Outside spec.path →
      (p.imported file name = .foreign ↔ ∀ id < p.packages.length, ¬ p.Overlaps spec.path id)

theorem Assembled.outside_iff (h : Assembled base (some m.path) parsed (Program.groups parsed) p)
    {s : String} (hs : m.Outside s) :
    p.packageByImportPath? s = none ↔ ∀ id < p.packages.length, ¬ p.Overlaps s id := by
  cases htest : endsWith s "_test" with
  | true =>
    refine iff_of_true (packageByImportPath?_test htest) fun id _ hoverlaps => ?_
    rw [hoverlaps.endsWith_eq_false] at htest
    cases htest
  | false =>
    have hnone : ∀ j < p.packages.length, p.pathOf j ≠ s := by
      rintro j hj rfl
      rw [h.endsWith_of_external hj (h.external_of_outside hj hs)] at htest
      cases htest
    constructor
    · intro hlookup id hid hoverlaps
      obtain ⟨first, hfirst⟩ := exists_first hid hoverlaps
      rw [(packageByImportPath?_other hnone).mpr hfirst] at hlookup
      cases hlookup
    · intro hall
      rw [Option.eq_none_iff_forall_ne_some]
      intro id hlookup
      have hfirst := (packageByImportPath?_other hnone).mp hlookup
      exact hall id hfirst.loaded hfirst.holds

theorem imported_foreign_iff {file : FileId} {name : String} {spec : Import}
    (hspec : (p.file file).imports.find? (p.importAnswers name) = some spec) :
    p.imported file name = .foreign ↔ p.packageByImportPath? spec.path = none := by
  rw [imported, hspec]
  cases hlookup : p.packageByImportPath? spec.path with
  | none => simp [hlookup]
  | some id => simp [hlookup]

theorem load_resolves {d : Disk} {targets : List String} {options : LoadOptions}
    (hload : load d targets options = .ok p) (hm : moduleOf? d targets = some m) :
    p.ResolvesIn m := by
  obtain ⟨parsed, rfl⟩ := load_eq_assemble hload hm
  have h := assembled_assemble parsed (Path.ofPlace m.directory).components (some m.path)
  generalize assemble parsed (Path.ofPlace m.directory).components (some m.path) = p at h
  constructor
  · intro id hid
    exact ⟨h.files_ne_nil hid, fun i hi => h.pathOf_eq hid hi⟩
  · exact p.exact_iff
  · intro id hid
    cases htest : endsWith (p.pathOf id) "_test" with
    | true =>
      rw [packageByImportPath?_test htest]
      exact ⟨nofun, fun hnot => absurd hnot.1 Bool.noConfusion⟩
    | false =>
      rw [packageByImportPath?_own htest ⟨id, hid.loaded, rfl⟩]
      exact ⟨fun hfirst => ⟨rfl, hfirst.least⟩, fun hleast => ⟨hid.loaded, rfl, hleast.2⟩⟩
  · intro s hs
    rw [← h.outside_iff hs]
    -- no package outside the module can be imported
    have himportable : ∀ id, ¬ (p.Importable id ∧ p.pathOf id = s) := by
      rintro id ⟨hid, rfl⟩
      have hexternal := hid.external
      rw [h.external_of_outside hid.loaded hs] at hexternal
      cases hexternal
    rw [Option.eq_none_iff_forall_ne_some]
    exact forall_congr' fun id => iff_false_right (himportable id)
  · intro file name spec hspec hs
    rw [imported_foreign_iff hspec, h.outside_iff hs]

end

def moduleDisk : Disk :=
  ⟨[(["go.mod"], .file "module m\n".toUTF8), (["errors"], .directory),
    (["errors", "errors.go"], .file "package errors\nimport \"errors\"\n".toUTF8)], []⟩

/-- The import leads to the package itself. -/
theorem load_resolves_errors : ∃ p, load moduleDisk ["errors/errors.go"] ⟨[], false, true⟩ = .ok p ∧
    moduleOf? moduleDisk ["errors/errors.go"] = some ⟨[], "m"⟩ ∧
    p.packages.map (·.importPath) = ["m/errors"] ∧ p.packageByImportPath? "errors" = some 0 ∧
    p.imported 0 "errors" = .loaded 0 ∧ Module.Outside ⟨[], "m"⟩ "errors" ∧ p.Overlaps "errors" 0 ∧
    ¬ p.Exact "errors" ∧ p.ResolvesIn ⟨[], "m"⟩ := by
  have hmodule : moduleOf? moduleDisk ["errors/errors.go"] = some ⟨[], "m"⟩ := by decide +kernel
  have hchecked : (load moduleDisk ["errors/errors.go"] ⟨[], false, true⟩).toOption.any (fun p =>
      p.packages.map (·.importPath) == ["m/errors"] && p.packageByImportPath? "errors" == some 0 &&
      p.imported 0 "errors" == .loaded 0 && p.pathOf 0 == "m/errors") = true := by decide +kernel
  obtain ⟨p, hp, hchecked⟩ := any_toOption.mp hchecked
  simp only [Bool.and_eq_true, beq_iff_eq] at hchecked
  obtain ⟨⟨⟨hpaths, hlookup⟩, himported⟩, hpath⟩ := hchecked
  have houtside : Module.Outside ⟨[], "m"⟩ "errors" := ⟨by decide, by decide⟩
  have hoverlaps : p.Overlaps "errors" 0 := by
    refine ⟨?_, ?_, .inr ?_⟩ <;> rw [hpath] <;> decide
  have hresolves : p.ResolvesIn ⟨[], "m"⟩ := load_resolves hp hmodule
  have hlength : 0 < p.packages.length := by
    rw [← List.length_map, hpaths]
    exact Nat.one_pos
  exact ⟨p, hp, hmodule, hpaths, hlookup, himported, houtside, hoverlaps,
    fun h => (hresolves.outside _ houtside).mp h 0 hlength hoverlaps, hresolves⟩

end Program

end ParamThreading
