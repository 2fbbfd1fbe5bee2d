import Mathlib.Data.List.Perm.Basic
import ParamThreading.Proofs.LoadedFiles
import ParamThreading.Proofs.PathOrder

/-!
# How a program is made of its sources

The files of a program are the sources, each of them once, and the packages divide them: the files
of a package follow each other, and they are those of one directory with one package clause. The
order of the sources leaves no trace.

* `Program.Assembled`  the packages of some groups one after the other, `assembled_addGroup` one
  more of them;
* `Program.Divided`  packages that divide the files of a program;
* `Program.assemble_eq_of_perm`  parsed files in any order make the same program;
* `Program.ofSources_divides`  programs of sources in memory.
-/

namespace ParamThreading

/-! ## files -/

namespace SourceFile

def directory (f : SourceFile) : List Component := Component.parentOf f.canonical.components

def clause? (f : SourceFile) : Option String := ParsedFile.packageNameOf? f.text f.tree

def DeclaresType (f : SourceFile) (name : String) : Prop :=
  ∃ declaration ∈ f.tree.codeChildren, declaration.kind = .typeDeclaration ∧
    ∃ spec ∈ declaration.codeChildren, spec.textIn? .name f.text = some name

end SourceFile

namespace ParsedFile

variable {path canonical : Path} {text : String} {initial : Bool} {f : ParsedFile}

/-- The text has a syntax tree with a package clause. -/
def Parses (text : String) : Prop :=
  ∃ tree name, Grammar.parse text = some tree ∧ packageNameOf? text tree = some name

theorem exists_ofText (h : Parses text) (path canonical : Path) (initial : Bool) :
    ∃ f, ofText path canonical text initial = .ok f := by
  obtain ⟨tree, name, htree, hname⟩ := h
  exact ⟨_, ofText_eq_ok.mpr ⟨tree, name, htree, hname, rfl⟩⟩

theorem fields_of_ofText (h : ofText path canonical text initial = .ok f) :
    f.path = path ∧ f.canonical = canonical ∧ f.text = text ∧
      packageNameOf? f.text f.tree = some f.packageName := by
  obtain ⟨tree, name, -, hname, rfl⟩ := ofText_eq_ok.mp h
  exact ⟨rfl, rfl, rfl, hname⟩

theorem mem_types {name : String} (package : PackageId) :
    name ∈ f.types ↔ (Program.fileOf package f).DeclaresType name := by
  simp only [types, List.mem_flatMap, List.mem_filter, List.mem_filterMap,
    decide_eq_true_eq, and_assoc]
  rfl

end ParsedFile

namespace Program

/-! ## packages one after the other -/

section
variable {base : List Component} {module : Option String} {parsed parsed' : List ParsedFile}
  {groups : List (List Component × String)} {p : Program}

/-- A program with the packages of some groups in their order: each has the indices of its files,
which follow each other. -/
structure Assembled (base : List Component) (module : Option String) (parsed : List ParsedFile)
    (groups : List (List Component × String)) (p : Program) : Prop where
  size : p.packages.length = groups.length
  covered : p.packages.flatMap (·.files) = List.range p.files.length
  package : ∀ (q : Nat) group, groups[q]? = some group → ∃ first,
    p.packages[q]? = some (packageOf base module group (membersOf parsed group) first) ∧
    ∀ (i : Nat) f, (membersOf parsed group)[i]? = some f → p.files[first + i]? = some (fileOf q f)

theorem assembled_addGroup (h : Assembled base module parsed groups p)
    (group : List Component × String) :
    Assembled base module parsed (groups ++ [group]) (addGroup base module parsed p group) := by
  have hfiles : (addGroup base module parsed p group).files =
      p.files ++ (membersOf parsed group).map (fileOf p.packages.length) := rfl
  have hpackages : (addGroup base module parsed p group).packages =
      p.packages ++ [packageOf base module group (membersOf parsed group) p.files.length] := rfl
  refine ⟨?_, ?_, fun q g hg => ?_⟩
  · rw [hpackages, List.length_append, List.length_append, h.size]
    rfl
  · rw [hpackages, List.flatMap_append, h.covered, hfiles, List.length_append, List.length_map,
      List.range_eq_range', List.range_eq_range', ← List.range'_append_1, Nat.zero_add]
    simp [packageOf]
  · rcases Nat.lt_or_ge q groups.length with hq | hq
    · -- what was there before stays where it is
      rw [List.getElem?_append_left hq] at hg
      obtain ⟨first, hpackage, hmembers⟩ := h.package q g hg
      refine ⟨first, ?_, fun i f hf => ?_⟩
      · rw [hpackages, List.getElem?_append_left (h.size ▸ hq), hpackage]
      · have hfile := hmembers i f hf
        obtain ⟨hlt, -⟩ := List.getElem?_eq_some_iff.mp hfile
        rw [hfiles, List.getElem?_append_left hlt, hfile]
    · rw [List.getElem?_append_right hq] at hg
      obtain ⟨hlt, rfl⟩ := List.getElem?_eq_some_iff.mp hg
      have hlast : q - groups.length < 1 := hlt
      have hq : q = p.packages.length := by
        have hsize := h.size
        omega
      subst hq
      refine ⟨p.files.length, ?_, fun i f hf => ?_⟩
      · rw [hpackages, List.getElem?_append_right (Nat.le_refl _)]
        simp
      · simp only [List.getElem_singleton] at hf
        rw [hfiles, List.getElem?_append_right (Nat.le_add_right _ _), Nat.add_sub_cancel_left,
          List.getElem?_map, hf]
        rfl

theorem assembled_foldl (h : Assembled base module parsed groups p)
    (more : List (List Component × String)) :
    Assembled base module parsed (groups ++ more) (more.foldl (addGroup base module parsed) p) := by
  induction more generalizing groups p with
  | nil => rwa [List.append_nil]
  | cons group more ih =>
    rw [List.foldl_cons, ← List.singleton_append, ← List.append_assoc]
    exact ih (assembled_addGroup h group)

theorem assembled_assemble (parsed : List ParsedFile) (base : List Component)
    (module : Option String) :
    Assembled base module parsed (Program.groups parsed) (assemble parsed base module) := by
  have hempty : Assembled base module parsed [] ⟨[], []⟩ := ⟨rfl, rfl, fun q group h => by cases h⟩
  exact assembled_foldl hempty (Program.groups parsed)

namespace Assembled

variable {q : PackageId} {i : FileId}

theorem package_eq (h : Assembled base module parsed groups p) (hq : q < p.packages.length) :
    ∃ group first, groups[q]? = some group ∧
      p.package q = packageOf base module group (membersOf parsed group) first ∧
      ∀ i f, (membersOf parsed group)[i]? = some f → p.file (first + i) = fileOf q f := by
  have hlt : q < groups.length := h.size ▸ hq
  obtain ⟨first, hpackage, hmembers⟩ := h.package q _ (List.getElem?_eq_getElem hlt)
  refine ⟨groups[q], first, List.getElem?_eq_getElem hlt, ?_, fun i f hf => ?_⟩
  · rw [Program.package, hpackage]
    rfl
  · rw [Program.file, hmembers i f hf]
    rfl

theorem files_eq (h : Assembled base module parsed groups p) (hq : q < p.packages.length) :
    ∃ group, groups[q]? = some group ∧
      (p.package q).types = ((membersOf parsed group).flatMap (·.types)).eraseDups.mergeSort
        (fun a b => (Ord.compare a b).isLE) ∧
      (p.package q).files.map p.file = (membersOf parsed group).map (fileOf q) := by
  obtain ⟨group, first, hgroup, hpackage, hmembers⟩ := h.package_eq hq
  refine ⟨group, hgroup, by rw [hpackage]; rfl, ?_⟩
  rw [hpackage]
  refine List.ext_getElem (by simp [packageOf]) fun i hi hi' => ?_
  rw [List.length_map] at hi'
  simp only [packageOf, List.getElem_map, List.getElem_range', Nat.one_mul]
  exact hmembers i _ (List.getElem?_eq_getElem hi')

theorem exists_of_mem (h : Assembled base module parsed groups p) (hq : q < p.packages.length)
    (hi : i ∈ (p.package q).files) :
    ∃ group f, groups[q]? = some group ∧ f ∈ parsed ∧ f.group = group ∧ p.file i = fileOf q f := by
  obtain ⟨group, hgroup, -, hfiles⟩ := h.files_eq hq
  have hmem : p.file i ∈ (membersOf parsed group).map (fileOf q) := hfiles ▸ List.mem_map_of_mem hi
  obtain ⟨f, hf, hfile⟩ := List.mem_map.mp hmem
  obtain ⟨hf, hfgroup⟩ := mem_membersOf.mp hf
  exact ⟨group, f, hgroup, hf, hfgroup, hfile.symm⟩

theorem exists_package (h : Assembled base module parsed groups p) (hi : i < p.files.length) :
    ∃ q, q < p.packages.length ∧ i ∈ (p.package q).files := by
  have hmem : i ∈ p.packages.flatMap (·.files) := by
    rw [h.covered]
    exact List.mem_range.mpr hi
  obtain ⟨pkg, hpkg, hi⟩ := List.mem_flatMap.mp hmem
  obtain ⟨q, hq, rfl⟩ := List.getElem_of_mem hpkg
  refine ⟨q, hq, ?_⟩
  rwa [Program.package, List.getElem?_eq_getElem hq]

theorem package_iff (h : Assembled base module parsed groups p) (hi : i < p.files.length)
    (hq : q < p.packages.length) : (p.file i).package = q ↔ i ∈ (p.package q).files := by
  constructor
  · intro hpackage
    obtain ⟨q', hq', hmem⟩ := h.exists_package hi
    obtain ⟨_, f, -, -, -, hfile⟩ := h.exists_of_mem hq' hmem
    rw [hfile] at hpackage
    exact hpackage ▸ hmem
  · intro hmem
    obtain ⟨_, f, -, -, -, hfile⟩ := h.exists_of_mem hq hmem
    rw [hfile]
    rfl

theorem exists_file (h : Assembled base module parsed groups p) (hi : i < p.files.length) :
    ∃ f ∈ parsed, groups[(p.file i).package]? = some f.group ∧
      p.file i = fileOf (p.file i).package f := by
  obtain ⟨q, hq, hmem⟩ := h.exists_package hi
  obtain ⟨_, f, hgroup, hf, rfl, hfile⟩ := h.exists_of_mem hq hmem
  have hpackage : (p.file i).package = q := (h.package_iff hi hq).mpr hmem
  exact ⟨f, hf, by rw [hpackage, hgroup], by rw [hpackage, hfile]⟩

end Assembled

theorem flatMap_membersOf_perm (hnodup : parsed.Nodup) :
    ((Program.groups parsed).flatMap (membersOf parsed)).Perm parsed := by
  refine (List.perm_ext_iff_of_nodup ?_ hnodup).mpr fun f => ?_
  · refine List.nodup_flatMap.mpr
      ⟨fun group _ => ?_, (nodup_groups parsed).imp fun {a b} hab f hf hf' => ?_⟩
    · exact (List.mergeSort_perm _ _).nodup_iff.mpr (hnodup.filter _)
    · exact hab ((mem_membersOf.mp hf).2.symm.trans (mem_membersOf.mp hf').2)
  · rw [List.mem_flatMap]
    constructor
    · rintro ⟨group, -, hf⟩
      exact (mem_membersOf.mp hf).1
    · intro hf
      exact ⟨f.group, mem_groups.mpr ⟨f, hf, rfl⟩, mem_membersOf.mpr ⟨hf, rfl⟩⟩

/-! ## files in any order -/

theorem membersOf_eq_of_perm (hpaths : (parsed.map (·.path.components)).Nodup)
    (h : parsed'.Perm parsed)
    (group : List Component × String) : membersOf parsed' group = membersOf parsed group := by
  have hnodup : ((parsed.filter (·.group = group)).map (·.path.components)).Nodup :=
    hpaths.sublist (List.filter_sublist.map _)
  exact mergeSort_eq_of_keys Component.compareAll (·.path.components) hnodup (h.filter _)

theorem addGroup_eq (group : List Component × String) : addGroup base module parsed p group =
    ⟨p.files ++ (membersOf parsed group).map (fileOf p.packages.length),
      p.packages ++ [packageOf base module group (membersOf parsed group) p.files.length]⟩ := rfl

theorem assemble_eq_of_perm (hpaths : (parsed.map (·.path.components)).Nodup)
    (h : parsed'.Perm parsed) : assemble parsed' base module = assemble parsed base module := by
  have hstep : addGroup base module parsed' = addGroup base module parsed := by
    funext p group
    rw [addGroup_eq, addGroup_eq, membersOf_eq_of_perm hpaths h]
  show (Program.groups parsed').foldl (addGroup base module parsed') _ =
    (Program.groups parsed).foldl (addGroup base module parsed) _
  rw [groups_eq_of_perm h, hstep]

end

/-! ## programs of sources -/

section
variable {onDisk : Path → Option Path} {sources : List (Path × String)} {parsed : List ParsedFile}
  {p : Program}

def ParsedFrom (onDisk : Path → Option Path) (source : Path × String) (f : ParsedFile) : Prop :=
  ParsedFile.ofText source.1 ((onDisk source.1).getD source.1) source.2 true = .ok f

theorem ofSources_eq_ok : ofSources onDisk sources = .ok p ↔
    ∃ parsed, List.Forall₂ (ParsedFrom onDisk) sources parsed ∧ assemble parsed [] none = p := by
  rw [ofSources, bind_eq_ok]
  refine exists_congr fun parsed => and_congr mapM_eq_ok ⟨fun h => ?_, fun h => ?_⟩
  · cases h
    rfl
  · rw [h]
    rfl

theorem map_of_parsedFrom (h : List.Forall₂ (ParsedFrom onDisk) sources parsed) :
    parsed.map (fun f => (f.path, f.text)) = sources := by
  induction h with
  | nil => rfl
  | cons hf _ ih =>
    obtain ⟨hpath, -, htext, -⟩ := ParsedFile.fields_of_ofText hf
    rw [List.map_cons, ih, hpath, htext]

theorem exists_source (h : List.Forall₂ (ParsedFrom onDisk) sources parsed) {f : ParsedFile}
    (hf : f ∈ parsed) : f.canonical = (onDisk f.path).getD f.path ∧
      ParsedFile.packageNameOf? f.text f.tree = some f.packageName := by
  induction h with
  | nil => cases hf
  | cons hparsed _ ih =>
    rcases List.mem_cons.mp hf with rfl | hf
    · obtain ⟨hpath, hcanonical, -, hname⟩ := ParsedFile.fields_of_ofText hparsed
      exact ⟨by rw [hcanonical, hpath], hname⟩
    · exact ih hf

/-- The packages of a program divide its files. A file is found under its path by its index. -/
structure Divided (onDisk : Path → Option Path) (p : Program) : Prop where
  found : ∀ i < p.files.length, p.findFile? onDisk (p.file i).path = some i
  placed : ∀ i < p.files.length, (p.file i).canonical = (onDisk (p.file i).path).getD
    (p.file i).path
  covered : p.packages.flatMap (·.files) = List.range p.files.length
  package : ∀ i < p.files.length, ∀ q < p.packages.length,
    (p.file i).package = q ↔ i ∈ (p.package q).files
  shared : ∀ i < p.files.length, ∀ j < p.files.length, (p.file i).package = (p.file j).package ↔
    (p.file i).directory = (p.file j).directory ∧ (p.file i).clause? = (p.file j).clause?
  types : ∀ q < p.packages.length, (p.package q).types.Nodup ∧ ∀ name,
    name ∈ (p.package q).types ↔ ∃ i ∈ (p.package q).files, (p.file i).DeclaresType name

theorem findFile?_of_nodup (h : (p.files.map (·.path.components)).Nodup) {i : FileId}
    (hi : i < p.files.length) : p.findFile? onDisk (p.file i).path = some i := by
  have hfile : p.file i = p.files[i] := by rw [Program.file, List.getElem?_eq_getElem hi]; rfl
  have hfirst : p.files.findIdx? (fun f => f.path.same (p.file i).path) = some i := by
    refine List.findIdx?_eq_some_iff_getElem.mpr ⟨hi, ?_, fun j hji hsame => ?_⟩
    · rw [hfile]
      exact beq_self_eq_true _
    · -- no two paths are the same
      have hj : j < p.files.length := hji.trans hi
      rw [hfile] at hsame
      have hsame : p.files[j].path.components = p.files[i].path.components := eq_of_beq hsame
      have heq := List.inj_on_of_nodup_map h (List.getElem_mem hj) (List.getElem_mem hi) hsame
      exact Nat.ne_of_lt hji ((h.of_map _).getElem_inj_iff.mp heq)
  rw [findFile?, hfirst]
  rfl

theorem files_perm (hparsed : List.Forall₂ (ParsedFrom onDisk) sources parsed)
    (hpaths : (sources.map (·.1.components)).Nodup) (base : List Component)
    (module : Option String) :
    ((assemble parsed base module).files.map fun f => (f.path, f.text)).Perm sources := by
  have hmap := map_of_parsedFrom hparsed
  have hnodup : parsed.Nodup := by
    rw [← hmap] at hpaths
    exact (hpaths.of_map _).of_map _
  have hfiles : (assemble parsed base module).files.map (fun f => (f.path, f.text)) =
      ((Program.groups parsed).flatMap (membersOf parsed)).map fun f => (f.path, f.text) :=
    map_files_assemble (fun _ _ => rfl) parsed base module
  rw [hfiles, ← hmap]
  exact (flatMap_membersOf_perm hnodup).map _

theorem Assembled.shared (hp : Assembled [] none parsed (Program.groups parsed) p)
    (hparsed : List.Forall₂ (ParsedFrom onDisk) sources parsed) {i j : FileId}
    (hi : i < p.files.length) (hj : j < p.files.length) : (p.file i).package = (p.file j).package ↔
      (p.file i).directory = (p.file j).directory ∧ (p.file i).clause? = (p.file j).clause? := by
  obtain ⟨f, hf, hgroup, hfile⟩ := hp.exists_file hi
  obtain ⟨g, hg, hgroup', hfile'⟩ := hp.exists_file hj
  have hclause : (p.file i).clause? = some f.packageName := by
    rw [hfile]
    exact (exists_source hparsed hf).2
  have hclause' : (p.file j).clause? = some g.packageName := by
    rw [hfile']
    exact (exists_source hparsed hg).2
  have hdirectory : (p.file i).directory = f.directory := by rw [hfile]; rfl
  have hdirectory' : (p.file j).directory = g.directory := by rw [hfile']; rfl
  rw [hclause, hclause', hdirectory, hdirectory', Option.some.injEq, ← Prod.mk.injEq]
  constructor
  · intro hsame
    rw [hsame, hgroup'] at hgroup
    exact (Option.some.inj hgroup).symm
  · intro hsame
    have hlt := (List.getElem?_eq_some_iff.mp hgroup).1
    have hsame : f.group = g.group := hsame
    rw [hsame, ← hgroup'] at hgroup
    exact (List.getElem?_inj hlt (nodup_groups parsed)).mp hgroup

theorem Assembled.mem_types {base : List Component} {module : Option String}
    {groups : List (List Component × String)} (hp : Assembled base module parsed groups p)
    {q : PackageId}
    (hq : q < p.packages.length) (name : String) :
    name ∈ (p.package q).types ↔ ∃ i ∈ (p.package q).files, (p.file i).DeclaresType name := by
  obtain ⟨group, -, htypes, hfiles⟩ := hp.files_eq hq
  have hmap : (∃ i ∈ (p.package q).files, (p.file i).DeclaresType name) ↔
      ∃ f ∈ (p.package q).files.map p.file, f.DeclaresType name := by
    simp only [List.mem_map, exists_exists_and_eq_and]
  rw [hmap, hfiles, htypes, List.mem_mergeSort, List.mem_eraseDups, List.mem_flatMap]
  simp only [List.mem_map, exists_exists_and_eq_and]
  exact exists_congr fun f => and_congr_right fun _ => ParsedFile.mem_types q

theorem divided_assemble (hparsed : List.Forall₂ (ParsedFrom onDisk) sources parsed)
    (hpaths : (sources.map (·.1.components)).Nodup) : (assemble parsed [] none).Divided onDisk := by
  have hp := assembled_assemble parsed [] none
  have hperm := (files_perm hparsed hpaths [] none).map (·.1.components)
  generalize assemble parsed [] none = p at hp hperm
  refine ⟨fun i hi => ?_, fun i hi => ?_, hp.covered, fun i hi q hq => hp.package_iff hi hq,
    fun i hi j hj => hp.shared hparsed hi hj, fun q hq => ⟨?_, hp.mem_types hq⟩⟩
  · refine findFile?_of_nodup ?_ hi
    have hnodup := hperm.nodup_iff.mpr hpaths
    rwa [List.map_map] at hnodup
  · obtain ⟨f, hf, -, hfile⟩ := hp.exists_file hi
    rw [hfile]
    exact (exists_source hparsed hf).1
  · obtain ⟨group, -, htypes, -⟩ := hp.files_eq hq
    rw [htypes]
    exact (List.mergeSort_perm _ _).nodup_iff.mpr (nodup_eraseDups _)

/-- Sources with different paths that can all be parsed make a program. Its files are the sources,
each of them once, its packages divide them, and the order of the sources has no effect on it. -/
theorem ofSources_divides (hpaths : (sources.map (·.1.components)).Nodup)
    (hsources : ∀ s ∈ sources, ParsedFile.Parses s.2) :
    ∃ p, ofSources onDisk sources = .ok p ∧
      (p.files.map fun f => (f.path, f.text)).Perm sources ∧ p.Divided onDisk ∧
      ∀ sources', sources'.Perm sources → ofSources onDisk sources' = .ok p := by
  obtain ⟨parsed, hparsed⟩ : ∃ parsed, List.Forall₂ (ParsedFrom onDisk) sources parsed := by
    obtain ⟨parsed, h⟩ := exists_mapM fun s hs =>
      ParsedFile.exists_ofText (hsources s hs) s.1 ((onDisk s.1).getD s.1) true
    exact ⟨parsed, mapM_eq_ok.mp h⟩
  have hnodup : (parsed.map (·.path.components)).Nodup := by
    rw [← map_of_parsedFrom hparsed, List.map_map] at hpaths
    exact hpaths
  refine ⟨assemble parsed [] none, ofSources_eq_ok.mpr ⟨parsed, hparsed, rfl⟩,
    files_perm hparsed hpaths [] none, divided_assemble hparsed hpaths, fun sources' hperm => ?_⟩
  obtain ⟨parsed', hparsed', hperm'⟩ := List.perm_comp_forall₂ hperm hparsed
  exact ofSources_eq_ok.mpr ⟨parsed', hparsed', assemble_eq_of_perm hnodup hperm'⟩

def scatteredSources : List (Path × String) :=
  [(⟨"b//y.go"⟩, "package b\n"), (⟨"a/./z.go"⟩, "package a\n"),
    (⟨"a/x.go"⟩, "package a\ntype T int\n")]

theorem ofSources_divides_scattered :
    (scatteredSources.map (·.1.components)).Nodup ∧
      (∀ s ∈ scatteredSources, ParsedFile.Parses s.2) ∧
    ∃ p, ofSources (fun _ => none) scatteredSources = .ok p ∧ p.files.length = 3 ∧
      ofSources (fun _ => none) scatteredSources.reverse = .ok p := by
  have hpaths : (scatteredSources.map (·.1.components)).Nodup := by decide
  have hchecked : scatteredSources.all (fun s => (Grammar.parse s.2).any fun tree =>
      (ParsedFile.packageNameOf? s.2 tree).isSome) = true := by decide +kernel
  have hsources : ∀ s ∈ scatteredSources, ParsedFile.Parses s.2 := by
    intro s hs
    obtain ⟨tree, htree, hname⟩ := (Option.any_eq_true _ _).mp (List.all_eq_true.mp hchecked s hs)
    obtain ⟨name, hname⟩ := Option.isSome_iff_exists.mp hname
    exact ⟨tree, name, htree, hname⟩
  obtain ⟨p, hp, hperm, -, hany⟩ := @ofSources_divides (fun _ => none) _ hpaths hsources
  refine ⟨hpaths, hsources, p, hp, ?_, hany _ scatteredSources.reverse_perm⟩
  have hlength := hperm.length_eq
  rwa [List.length_map] at hlength

end

end Program

end ParamThreading
