import Mathlib.Data.List.Pairwise
import ParamThreading.Proofs.WalkedFiles

/-!
# The files of a program on disk

Each of them was read at its path, and no two paths lead to the same place: a target is read once
whatever the number of ways it is named, and a package that is imported is loaded only if nothing of
its directory is.

* `ParsedFile.ReadFrom`  a file that was read at its path;
* `Loading.Collected`  what is known of the files between two imports;
* `Program.OnDisk`  programs whose files are at different places of a disk;
* `Program.onDisk_of_load`  loaded programs are such.
-/

namespace ParamThreading

theorem Utf8.toUTF8_of_decode {bytes : ByteArray} {text : String} (h : decode bytes = .ok text) :
    text.toUTF8 = bytes := by
  unfold decode String.fromUTF8? at h
  split at h
  case h_1 s hs =>
    split at hs
    · cases hs
      cases h
      rfl
    · cases hs
  case h_2 => cases h

namespace Disk

variable {d : Disk} {p : Path}

theorem canonicalOrSelf_of_locate {place : Place} (h : d.locate p = .ok place) :
    d.canonicalOrSelf p = Path.ofPlace place := by
  rw [canonicalOrSelf, canonical?, h]
  rfl

def HoldsText (d : Disk) (p : Path) (place : Place) (text : String) : Prop :=
  d.locate p = .ok place ∧ d.entry? place = some (.file text.toUTF8)

theorem holdsText_of_readText {source : SourceText} (h : d.readText p = .ok source) :
    ∃ place, d.HoldsText p place source.text := by
  unfold readText at h
  cases hlocate : d.locate p with
  | error e => rw [hlocate] at h; cases h
  | ok place =>
    rw [hlocate] at h
    simp only [read, hlocate] at h
    cases hentry : d.entry? place with
    | none => rw [hentry] at h; cases h
    | some e =>
      rw [hentry] at h
      cases e with
      | directory => cases h
      | file content =>
        simp only at h
        cases hdecode : Utf8.decode content with
        | error f => rw [hdecode] at h; cases h
        | ok text =>
          rw [hdecode] at h
          cases h
          refine ⟨place, hlocate, ?_⟩
          rw [hentry, Utf8.toUTF8_of_decode hdecode]

end Disk

/-! ## parsed files -/

def ParsedFile.ReadFrom (d : Disk) (f : ParsedFile) : Prop :=
  ∃ place, d.HoldsText f.path place f.text ∧ f.canonical = Path.ofPlace place

def ParsedFile.Elsewhere (f g : ParsedFile) : Prop := f.canonical ≠ g.canonical

instance : Std.Symm ParsedFile.Elsewhere := ⟨fun _ _ h => h.symm⟩

namespace Loading

variable {d : Disk} {w : Walker} {m : Module} {initial : Bool} {paths : List Path} {f : ParsedFile}
  {fs parsed : List ParsedFile}

theorem parse_eq_ok {p : Path} : parse d initial p = .ok f ↔ ∃ source, d.readText p = .ok source ∧
    ParsedFile.ofText p (d.canonicalOrSelf p) source.text initial = .ok f := by
  unfold parse
  cases d.readText p with
  | error e => exact ⟨nofun, nofun⟩
  | ok source =>
    constructor
    · intro h
      exact ⟨source, rfl, h⟩
    · rintro ⟨_, ⟨⟩, h⟩
      exact h

theorem fields_of_parse {p : Path} (h : parse d initial p = .ok f) :
    f.path = p ∧ f.canonical = d.canonicalOrSelf p ∧ f.ReadFrom d := by
  obtain ⟨source, hsource, htext⟩ := parse_eq_ok.mp h
  obtain ⟨place, hholds⟩ := Disk.holdsText_of_readText hsource
  have hcanonical := Disk.canonicalOrSelf_of_locate hholds.1
  obtain ⟨tree, name, -, -, rfl⟩ := ParsedFile.ofText_eq_ok.mp htext
  exact ⟨rfl, rfl, place, hholds, hcanonical⟩

/-- The paths that are kept come from the paths, and lead to different places. -/
theorem distinct_spec (d : Disk) (paths : List Path) : (∀ p ∈ distinct d paths, p ∈ paths) ∧
    (distinct d paths).Pairwise fun p q => d.canonicalOrSelf p ≠ d.canonicalOrSelf q := by
  have hgoal :
      ∀ kept : List Path, (kept.Pairwise fun p q => d.canonicalOrSelf p ≠ d.canonicalOrSelf q) →
      (∀ p ∈ paths.foldl (fun kept p => if kept.any fun q =>
        (d.canonicalOrSelf q).same (d.canonicalOrSelf p) then kept else kept ++ [p]) kept,
          p ∈ kept ∨ p ∈ paths) ∧
      (paths.foldl (fun kept p => if kept.any fun q =>
        (d.canonicalOrSelf q).same (d.canonicalOrSelf p) then kept else kept ++ [p]) kept).Pairwise
          fun p q => d.canonicalOrSelf p ≠ d.canonicalOrSelf q := by
    induction paths with
    | nil => exact fun kept hkept => ⟨fun p hp => .inl hp, hkept⟩
    | cons p paths ih =>
      intro kept hkept
      rw [List.foldl_cons]
      split
      case isTrue =>
        obtain ⟨hmem, hpairwise⟩ := ih kept hkept
        exact ⟨fun q hq => (hmem q hq).imp_right (List.mem_cons_of_mem _), hpairwise⟩
      case isFalse hnone =>
        have hnew : (kept ++ [p]).Pairwise fun p q =>
            d.canonicalOrSelf p ≠ d.canonicalOrSelf q := by
          refine List.pairwise_append.mpr ⟨hkept, List.pairwise_singleton _ _,
            fun q hq r hr heq => ?_⟩
          rw [List.mem_singleton.mp hr] at heq
          exact hnone (List.any_eq_true.mpr ⟨q, hq, by simp [Path.same, heq]⟩)
        obtain ⟨hmem, hpairwise⟩ := ih (kept ++ [p]) hnew
        refine ⟨fun q hq => ?_, hpairwise⟩
        have hq := hmem q hq
        rw [List.mem_append, List.mem_singleton] at hq
        rw [List.mem_cons]
        tauto
  obtain ⟨hmem, hpairwise⟩ := hgoal [] .nil
  exact ⟨fun p hp => (hmem p hp).resolve_left (by simp), hpairwise⟩

/-- Files that are read together were read at some of the paths, and are at different places. -/
theorem parseAll_spec (h : parseAll d initial paths = .ok fs) :
    (∀ f ∈ fs, f.path ∈ paths ∧ f.ReadFrom d) ∧ fs.Pairwise ParsedFile.Elsewhere := by
  obtain ⟨hmem, hpairwise⟩ := distinct_spec d paths
  refine ⟨fun f hf => ?_, ?_⟩
  · obtain ⟨p, hp, hparse⟩ := (mem_mapM h).mp hf
    obtain ⟨hpath, -, hread⟩ := fields_of_parse hparse
    exact ⟨hpath ▸ hmem p hp, hread⟩
  · have hall := mapM_eq_ok.mp h
    clear h
    generalize distinct d paths = kept at hall hpairwise
    induction hall with
    | nil => exact .nil
    | @cons p f kept fs hparse hrest ih =>
      obtain ⟨hp, hpairwise⟩ := List.pairwise_cons.mp hpairwise
      refine List.pairwise_cons.mpr ⟨fun g hg => ?_, ih hpairwise⟩
      obtain ⟨q, hq, hparse'⟩ := (mem_mapM (mapM_eq_ok.mpr hrest)).mp hg
      rw [ParsedFile.Elsewhere, (fields_of_parse hparse).2.1, (fields_of_parse hparse').2.1]
      exact hp q hq

/-! ## packages that are imported -/

theorem recursive_of_walker {options : LoadOptions} {tests : Bool}
    (h : walker options tests = .ok w) : w.recursive = false := by
  unfold walker at h
  split at h
  case h_1 w' hw' =>
    cases h
    obtain ⟨patterns, -, hw'⟩ := bind_eq_ok.mp hw'
    cases hw'
    rfl
  case h_2 => cases h

theorem isAbsolute_of_directoryOf? {importPath : String} {dir : Path}
    (h : m.directoryOf? importPath = some dir) : dir.isAbsolute = true := by
  unfold Module.directoryOf? at h
  split at h
  · cases h
    exact Path.isAbsolute_join (Path.isAbsolute_ofPlace _) _
  · obtain ⟨rest, -, rfl⟩ := Option.map_eq_some_iff.mp h
    split
    case isTrue hrest =>
      rw [Path.isAbsolute, String.toList_ofList]
      exact hrest
    case isFalse => exact Path.isAbsolute_join (Path.isAbsolute_ofPlace _) _

theorem directory_of_parseAll (hd : d.isNamed = true) (hw : w.recursive = false) {dir : Path}
    (hdir : dir.isAbsolute = true) (hdirectory : d.isDirectory dir = true)
    (h : parseAll d initial (w.goFiles d dir) = .ok fs) (hf : f ∈ fs) :
    f.directory = (d.canonicalOrSelf dir).components := by
  obtain ⟨base, hbase, hat⟩ := Disk.isDirectory_eq_true.mp hdirectory
  obtain ⟨hpath, place, ⟨hlocate, -⟩, hcanonical⟩ := (parseAll_spec h).1 f hf
  obtain ⟨name, hlists, hjoin⟩ := (Walker.mem_goFiles_of_isAbsolute hd hw hdir hbase hat).mp hpath
  rw [hjoin] at hlocate
  obtain rfl := Disk.locate_join hdir (hlists.named hd) hbase hlocate
  have hnamed := Disk.named_locate hd (Path.isAbsolute_join hdir name) hlocate
  rw [ParsedFile.directory, hcanonical, Path.directory_ofPlace hnamed,
    Disk.canonicalOrSelf_of_locate hbase]

/-- Between two imports: files were read, all are at different places and their directories are
known. -/
structure Collected (d : Disk) (parsed : List ParsedFile) (s : Progress) : Prop where
  read : ∀ f ∈ s.files, f.ReadFrom d
  apart : (parsed ++ s.files).Pairwise ParsedFile.Elsewhere
  known : ∀ f ∈ parsed ++ s.files, f.directory ∈ s.directories

theorem Collected.dependency {s s' : Progress} {importPath : String} {found : List String}
    (hd : d.isNamed = true) (hw : w.recursive = false)
    (h : dependency d w m s importPath = .ok (s', found)) (hs : Collected d parsed s) :
    Collected d parsed s' := by
  rcases dependency_eq_ok h with ⟨rfl, -⟩ | ⟨dir, fs, hdir, hdirectory, hnew, hfs, rfl, -⟩
  · exact hs
  · obtain ⟨hread, hapart⟩ := parseAll_spec hfs
    have hhome : ∀ f ∈ fs, f.directory = (d.canonicalOrSelf dir).components := fun f hf =>
      directory_of_parseAll hd hw (isAbsolute_of_directoryOf? hdir) hdirectory hfs hf
    refine ⟨fun f hf => ?_, ?_, fun f hf => ?_⟩
    · exact (List.mem_append.mp hf).elim (hs.read f) fun hf => (hread f hf).2
    · rw [Progress.adding, ← List.append_assoc]
      refine List.pairwise_append.mpr ⟨hs.apart, hapart, fun f hf g hg heq => hnew ?_⟩
      -- a file at the same place would be in the same directory
      rw [← hhome g hg, ParsedFile.directory, ← heq]
      exact hs.known f hf
    · rw [Progress.adding, ← List.append_assoc] at hf
      refine List.mem_append.mpr ((List.mem_append.mp hf).imp (hs.known f) fun hf => ?_)
      exact List.mem_singleton.mpr (hhome f hf)

theorem dependencies_spec (hd : d.isNamed = true) (hw : w.recursive = false)
    (hapart : parsed.Pairwise ParsedFile.Elsewhere) (h : dependencies d w m parsed = .ok fs) :
    (∀ f ∈ fs, f.ReadFrom d) ∧ (parsed ++ fs).Pairwise ParsedFile.Elsewhere := by
  obtain ⟨s, hs, h⟩ := bind_eq_ok.mp h
  cases h
  have hstart : Collected d parsed ⟨parsed.map (·.directory), []⟩ := by
    refine ⟨nofun, ?_, fun f hf => ?_⟩
    · rwa [List.append_nil]
    · rw [List.append_nil] at hf
      exact List.mem_map_of_mem hf
  have hend := rounds_invariant (P := Collected d parsed) (Collected.dependency hd hw) hs hstart
  exact ⟨hend.read, hend.apart⟩

end Loading

/-! ## programs -/

namespace Program

/-- The files of the program are at different places of the disk, which hold their texts. -/
structure OnDisk (d : Disk) (p : Program) : Prop where
  held : ∀ f ∈ p.files, ∃ place, d.HoldsText f.path place f.text
  apart : p.files.Pairwise fun f g => d.locate f.path ≠ d.locate g.path

def membersOf (parsed : List ParsedFile) (group : List Component × String) : List ParsedFile :=
  (parsed.filter (·.group = group)).mergeSort fun a b => a.path.le b.path

theorem mem_membersOf {parsed : List ParsedFile} {group : List Component × String}
    {f : ParsedFile} : f ∈ membersOf parsed group ↔ f ∈ parsed ∧ f.group = group := by
  rw [membersOf, List.mem_mergeSort, List.mem_filter, decide_eq_true_eq]

theorem map_files_assemble {α : Type} {field : SourceFile → α} {parsedField : ParsedFile → α}
    (hfield : ∀ q f, field (fileOf q f) = parsedField f) (parsed : List ParsedFile)
    (base : List Component)
    (module : Option String) : (assemble parsed base module).files.map field =
      ((Program.groups parsed).flatMap (membersOf parsed)).map parsedField := by
  have hfold : ∀ (groups : List (List Component × String)) (p : Program),
      (groups.foldl (addGroup base module parsed) p).files.map field =
        p.files.map field ++ (groups.flatMap (membersOf parsed)).map parsedField := by
    intro groups
    induction groups with
    | nil => simp
    | cons group groups ih =>
      intro p
      have hmembers : field ∘ fileOf p.packages.length = parsedField :=
        funext (hfield p.packages.length)
      rw [List.foldl_cons, ih, List.flatMap_cons, List.map_append, ← List.append_assoc]
      congr 1
      rw [addGroup, List.map_append, List.map_map, hmembers]
      rfl
  exact hfold (Program.groups parsed) ⟨[], []⟩

theorem mem_flatMap_membersOf {parsed : List ParsedFile} {groups : List (List Component × String)}
    {f : ParsedFile} (h : f ∈ groups.flatMap (membersOf parsed)) : f ∈ parsed := by
  obtain ⟨group, -, hf⟩ := List.mem_flatMap.mp h
  exact (mem_membersOf.mp hf).1

theorem apart_flatMap_membersOf {parsed : List ParsedFile}
    (hapart : parsed.Pairwise ParsedFile.Elsewhere) :
    ((Program.groups parsed).flatMap (membersOf parsed)).Pairwise ParsedFile.Elsewhere := by
  refine List.pairwise_flatMap.mpr ⟨fun group _ => ?_,
    (nodup_groups parsed).imp fun {a b} hab f hf g hg => ?_⟩
  · exact ((List.mergeSort_perm _ _).pairwise_iff fun h => h.symm).mpr (hapart.filter _)
  · obtain ⟨hfmem, hfgroup⟩ := mem_membersOf.mp hf
    obtain ⟨hgmem, hggroup⟩ := mem_membersOf.mp hg
    -- files of different groups are different
    refine hapart.forall hfmem hgmem ?_
    rintro rfl
    exact hab (hfgroup.symm.trans hggroup)

/-- Files that were read at different places make a program on disk. -/
theorem onDisk_assemble {d : Disk} {parsed : List ParsedFile} (hread : ∀ f ∈ parsed, f.ReadFrom d)
    (hapart : parsed.Pairwise ParsedFile.Elsewhere) (base : List Component)
    (module : Option String) :
    (assemble parsed base module).OnDisk d := by
  have hfiles : (assemble parsed base module).files.map (fun f => (f.path, f.text)) =
      ((Program.groups parsed).flatMap (membersOf parsed)).map fun f => (f.path, f.text) :=
    map_files_assemble (fun _ _ => rfl) parsed base module
  constructor
  · intro f hf
    have hpair := List.mem_map_of_mem (f := fun f => (f.path, f.text)) hf
    rw [hfiles] at hpair
    obtain ⟨g, hg, heq⟩ := List.mem_map.mp hpair
    obtain ⟨place, hholds, -⟩ := hread g (mem_flatMap_membersOf hg)
    rw [Prod.mk.injEq] at heq
    rw [heq.1, heq.2] at hholds
    exact ⟨place, hholds⟩
  · have hplaces : ((Program.groups parsed).flatMap (membersOf parsed)).Pairwise
        fun f g => d.locate f.path ≠ d.locate g.path := by
      refine (apart_flatMap_membersOf hapart).imp_of_mem fun {f g} hf hg hne heq => hne ?_
      obtain ⟨place, ⟨hlocate, -⟩, hcanonical⟩ := hread f (mem_flatMap_membersOf hf)
      obtain ⟨place', ⟨hlocate', -⟩, hcanonical'⟩ := hread g (mem_flatMap_membersOf hg)
      rw [heq, hlocate'] at hlocate
      cases hlocate
      rw [hcanonical, hcanonical']
    have hpairs : (((Program.groups parsed).flatMap (membersOf parsed)).map
        fun f => (f.path, f.text)).Pairwise fun x y => d.locate x.1 ≠ d.locate y.1 :=
      List.pairwise_map.mpr hplaces
    rw [← hfiles, List.pairwise_map] at hpairs
    exact hpairs

theorem onDisk_of_load {d : Disk} {targets : List String} {options : LoadOptions} {p : Program}
    (hd : d.isNamed = true) (h : load d targets options = .ok p) : p.OnDisk d := by
  obtain ⟨paths, parsed, more, base, module, hparsed, hmore, rfl⟩ := load_eq_ok h
  obtain ⟨hread, hapart⟩ := Loading.parseAll_spec hparsed
  rcases hmore with rfl | ⟨w, m, hw, hmore⟩
  · rw [List.append_nil]
    exact onDisk_assemble (fun f hf => (hread f hf).2) hapart base module
  · obtain ⟨hread', hapart'⟩ :=
      Loading.dependencies_spec hd (Loading.recursive_of_walker hw) hapart hmore
    refine onDisk_assemble (fun f hf => ?_) hapart' base module
    exact (List.mem_append.mp hf).elim (fun hf => (hread f hf).2) (hread' f)

end Program

end ParamThreading
