import ParamThreading.Proofs.LoadedFiles

/-!
# The packages that a program imports from its own module

Imports wait in a queue; each of them that leads to a directory of the module is passed over if the
directory is known, and otherwise the Go sources of the directory are read and their imports wait in
turn. Every directory is read at most once, so the queue runs empty, whatever the packages import
from each other. Then the directories that were read are those that chains of imports lead to.

* `Loading.Search`  the search as long as imports wait, `Loading.search_rounds`  it always ends;
* `Loading.Reached`  the directories that chains of imports lead to;
* `Loading.Traced`  what is known while imports wait, `Loading.Traced.dependency`  after each of
  them;
* `Loading.Closes`, `Loading.dependencies_closure`  what is loaded in the end.
-/

namespace ParamThreading

/-! ## paths to one place -/

theorem Path.ofPlace_inj {place place' : Place} (h : ∀ name ∈ place, isFileName name = true)
    (h' : ∀ name ∈ place', isFileName name = true)
    (heq : (ofPlace place).components = (ofPlace place').components) : place = place' := by
  rw [components_ofPlace h, components_ofPlace h'] at heq
  exact List.map_injective_iff.mpr (fun a b hab => Component.name.inj hab) (List.cons.inj heq).2

theorem Disk.readText_of_locate {d : Disk} {p p' : Path} {place : Place} {source : SourceText}
    (hp : d.locate p = .ok place) (hp' : d.locate p' = .ok place) (h : d.readText p = .ok source) :
    d.readText p' = .ok source := by
  simp only [readText, read, hp, hp'] at h ⊢
  cases hentry : d.entry? place with
  | none =>
    rw [hentry] at h
    cases h
  | some e =>
    rw [hentry] at h
    cases e with
    | directory => cases h
    | file content =>
      simp only at h ⊢
      cases hdecode : Utf8.decode content with
      | error f =>
        rw [hdecode] at h
        cases h
      | ok text =>
        rw [hdecode] at h
        exact h

/-- An import leads to a directory of the module. -/
def Module.LeadsTo (m : Module) (d : Disk) (importPath : String) (place : Place) : Prop :=
  ∃ dir, m.directoryOf? importPath = some dir ∧ d.locate dir = .ok place ∧
    d.isDirectoryAt place = true

namespace Loading

variable {d : Disk} {w : Walker} {m : Module} {initial : Bool} {f : ParsedFile}
  {parsed files fs : List ParsedFile} {s s' : Progress} {importPath : String}
  {imports queue found : List String} {r : Except Failure Progress} {place : Place}

/-- What a file imports does not depend on the path it was found by. -/
theorem exists_parse_of_locate {p p' : Path} (hp : d.locate p = .ok place)
    (hp' : d.locate p' = .ok place)
    (h : parse d initial p = .ok f) :
    ∃ f', parse d initial p' = .ok f' ∧ f'.imports = f.imports := by
  obtain ⟨source, hsource, htext⟩ := parse_eq_ok.mp h
  obtain ⟨tree, name, htree, hname, rfl⟩ := ParsedFile.ofText_eq_ok.mp htext
  exact ⟨_, parse_eq_ok.mpr ⟨source, Disk.readText_of_locate hp hp' hsource,
    ParsedFile.ofText_eq_ok.mpr ⟨tree, name, htree, hname, rfl⟩⟩, rfl⟩

/-! ## the search ends -/

/-- The search as long as imports wait: the first of them is looked at, and those that its files add
wait behind the others. -/
inductive Search (d : Disk) (w : Walker) (m : Module) :
    Progress → List String → Except Failure Progress → Prop where
  | done (s : Progress) : Search d w m s [] (.ok s)
  | failed {s : Progress} {importPath : String} {queue : List String} {e : Failure} :
      dependency d w m s importPath = .error e → Search d w m s (importPath :: queue) (.error e)
  | next {s s' : Progress} {importPath : String} {queue found : List String}
    {r : Except Failure Progress} :
      dependency d w m s importPath = .ok (s', found) → Search d w m s' (queue ++ found) r →
      Search d w m s (importPath :: queue) r

theorem search_of_round (h : round d w m s imports = .ok (s', found))
    (hrest : Search d w m s' (queue ++ found) r) : Search d w m s (imports ++ queue) r := by
  induction imports generalizing s found queue with
  | nil =>
    cases h
    rwa [List.append_nil] at hrest
  | cons importPath imports ih =>
    obtain ⟨⟨s₁, found₁⟩, h₁, h⟩ := bind_eq_ok.mp h
    obtain ⟨⟨s₂, found₂⟩, h₂, h⟩ := bind_eq_ok.mp h
    cases h
    rw [← List.append_assoc] at hrest
    have hlater := ih h₂ hrest
    rw [← List.append_assoc] at hlater
    exact .next h₁ hlater

theorem search_of_round_error {e : Failure} (h : round d w m s imports = .error e)
    (queue : List String) : Search d w m s (imports ++ queue) (.error e) := by
  induction imports generalizing s queue with
  | nil => cases h
  | cons importPath imports ih =>
    rcases bind_eq_error.mp h with h₁ | ⟨⟨s₁, found₁⟩, h₁, h⟩
    · exact .failed h₁
    · rcases bind_eq_error.mp h with h₂ | ⟨x, -, h⟩
      · have hlater := ih h₂ (queue ++ found₁)
        rw [← List.append_assoc] at hlater
        exact .next h₁ hlater
      · cases h

/-- The places of the disk whose directory is not known yet. -/
def unknown (d : Disk) (s : Progress) : List Place :=
  ([] :: d.entries.map (·.1)).filter fun place =>
    !s.directories.contains (Path.ofPlace place).components

theorem length_unknown_le (d : Disk) (s : Progress) :
    (unknown d s).length ≤ d.entries.length + 1 := by
  refine (List.length_filter_le _ _).trans ?_
  rw [List.length_cons, List.length_map]

/-- An import adds nothing, or a directory becomes known. -/
theorem unknown_dependency (h : dependency d w m s importPath = .ok (s', found)) :
    (s' = s ∧ found = []) ∨ (unknown d s').length < (unknown d s).length := by
  rcases dependency_eq_ok h with hsame | ⟨dir, files, -, hdirectory, hnew, -, rfl, -⟩
  · exact .inl hsame
  · right
    obtain ⟨place, hplace, hat⟩ := Disk.isDirectory_eq_true.mp hdirectory
    rw [Disk.canonicalOrSelf_of_locate hplace] at hnew ⊢
    have hmem : place ∈ unknown d s := by
      refine List.mem_filter.mpr ⟨?_, by simpa using hnew⟩
      by_cases hne : place = []
      · rw [hne]
        exact List.mem_cons_self
      · rw [Disk.isDirectoryAt, Option.any_eq_true] at hat
        obtain ⟨e, he, -⟩ := hat
        exact List.mem_cons_of_mem _ (List.mem_map_of_mem (Disk.mem_entries_of_eq_some hne he))
    have hunknown : unknown d (s.adding (Path.ofPlace place).components files) =
        (unknown d s).filter
        fun q => (Path.ofPlace q).components != (Path.ofPlace place).components := by
      rw [unknown, unknown, List.filter_filter]
      refine List.filter_congr fun q _ => ?_
      rw [Progress.adding, Bool.eq_iff_iff]
      simp [and_comm]
    rw [hunknown, List.length_filter_lt_length_iff_exists]
    exact ⟨place, hmem, by simp⟩

theorem unknown_round (h : round d w m s imports = .ok (s', found)) :
    (unknown d s').length ≤ (unknown d s).length ∧
      (found ≠ [] → (unknown d s').length < (unknown d s).length) := by
  induction imports generalizing s found with
  | nil =>
    cases h
    exact ⟨le_refl _, absurd rfl⟩
  | cons importPath imports ih =>
    obtain ⟨⟨s₁, found₁⟩, h₁, h⟩ := bind_eq_ok.mp h
    obtain ⟨⟨s₂, found₂⟩, h₂, h⟩ := bind_eq_ok.mp h
    cases h
    obtain ⟨hle, hlt⟩ := ih h₂
    rcases unknown_dependency h₁ with ⟨rfl, rfl⟩ | hfirst
    · exact ⟨hle, hlt⟩
    · exact ⟨by omega, fun _ => by omega⟩

theorem rounds_cons (n : Nat) (importPath : String) :
    rounds d w m (n + 1) s (importPath :: imports) =
    round d w m s (importPath :: imports) >>= fun x => rounds d w m n x.1 x.2 := rfl

/-- With a round for each unknown place and one more, the rounds give what the search gives. -/
theorem search_rounds {n : Nat} (hn : imports ≠ [] → (unknown d s).length < n) :
    Search d w m s imports (rounds d w m n s imports) := by
  induction n generalizing s imports with
  | zero =>
    obtain rfl : imports = [] := by
      by_contra hne
      exact absurd (hn hne) (Nat.not_lt_zero _)
    exact .done s
  | succ n ih =>
    cases imports with
    | nil => exact .done s
    | cons importPath imports =>
      have hunknown := hn (List.cons_ne_nil _ _)
      have hqueue : importPath :: imports = (importPath :: imports) ++ [] :=
        (List.append_nil _).symm
      rw [rounds_cons]
      cases hround : round d w m s (importPath :: imports) with
      | error e =>
        rw [hqueue]
        exact search_of_round_error hround []
      | ok x =>
        obtain ⟨s', found⟩ := x
        obtain ⟨-, hlt⟩ := unknown_round hround
        have hlater : Search d w m s' found (rounds d w m n s' found) :=
          ih fun hne => Nat.lt_of_lt_of_le (hlt hne) (Nat.le_of_lt_succ hunknown)
        rw [hqueue]
        exact search_of_round hround hlater

/-! ## files of one directory -/

theorem distinct_of_apart {paths : List Path}
    (h : paths.Pairwise fun p q =>
      (d.canonicalOrSelf p).components ≠ (d.canonicalOrSelf q).components) :
    distinct d paths = paths := by
  have hgoal : ∀ kept : List Path, ((kept ++ paths).Pairwise fun p q =>
      (d.canonicalOrSelf p).components ≠ (d.canonicalOrSelf q).components) →
      paths.foldl
        (fun kept p => if kept.any fun q => (d.canonicalOrSelf q).same (d.canonicalOrSelf p)
        then kept else kept ++ [p]) kept = kept ++ paths := by
    clear h
    induction paths with
    | nil => exact fun kept _ => (List.append_nil kept).symm
    | cons p paths ih =>
      intro kept hkept
      have hnew : (kept.any fun q => (d.canonicalOrSelf q).same (d.canonicalOrSelf p)) = false := by
        rw [List.any_eq_false]
        intro q hq
        rw [Path.same, beq_iff_eq]
        exact (List.pairwise_append.mp hkept).2.2 q hq p List.mem_cons_self
      rw [List.append_cons] at hkept
      rw [List.foldl_cons, hnew, if_neg Bool.false_ne_true, ih _ hkept, ← List.append_cons]
  exact hgoal [] h

section
variable {dir : Path} (hnamed : d.isNamed = true) (hplaces : (d.entries.map (·.1)).Nodup)
  (hw : w.recursive = false) (hdir : dir.isAbsolute = true) (hbase : d.locate dir = .ok place)
  (hat : d.isDirectoryAt place = true)

include hnamed hw hdir hbase hat

theorem locate_of_mem_goFiles {p : Path} (hp : p ∈ w.goFiles d dir) :
    ∃ name, w.Lists d place name ∧ p = dir.join name ∧ d.locate p = .ok (place ++ [name]) := by
  obtain ⟨name, hlists, rfl⟩ := (Walker.mem_goFiles_of_isAbsolute hnamed hw hdir hbase hat).mp hp
  exact ⟨name, hlists, rfl, Disk.locate_join_of_entry hdir (hlists.named hnamed) hbase hat
    hlists.entry⟩

theorem exists_of_mem_goFiles {dir' p : Path} (hdir' : dir'.isAbsolute = true)
    (hbase' : d.locate dir' = .ok place) (hp : p ∈ w.goFiles d dir) :
    ∃ p' ∈ w.goFiles d dir', ∃ here, d.locate p = .ok here ∧ d.locate p' = .ok here := by
  obtain ⟨name, hlists, rfl, hlocate⟩ := locate_of_mem_goFiles hnamed hw hdir hbase hat hp
  refine ⟨dir'.join name, ?_, _, hlocate, ?_⟩
  · exact (Walker.mem_goFiles_of_isAbsolute hnamed hw hdir' hbase' hat).mpr ⟨name, hlists, rfl⟩
  · exact Disk.locate_join_of_entry hdir' (hlists.named hnamed) hbase' hat hlists.entry

include hplaces

/-- The files of a directory are at different places, so each of them is parsed. -/
theorem parseAll_goFiles (initial : Bool) :
    parseAll d initial (w.goFiles d dir) = (w.goFiles d dir).mapM (parse d initial) := by
  rw [parseAll, distinct_of_apart]
  refine (Walker.sorted_goFiles hnamed hplaces hbase hat w).imp_of_mem ?_
  intro p q hp hq hbefore heq
  obtain ⟨name, hlists, rfl, hlocate⟩ := locate_of_mem_goFiles hnamed hw hdir hbase hat hp
  obtain ⟨name', hlists', rfl, hlocate'⟩ := locate_of_mem_goFiles hnamed hw hdir hbase hat hq
  rw [Disk.canonicalOrSelf_of_locate hlocate, Disk.canonicalOrSelf_of_locate hlocate'] at heq
  have hplace :=
    Path.ofPlace_inj (Disk.named_locate hnamed (Path.isAbsolute_join hdir name) hlocate)
    (Disk.named_locate hnamed (Path.isAbsolute_join hdir name') hlocate') heq
  obtain ⟨-, hname⟩ := List.append_inj' hplace rfl
  cases hname
  exact Path.not_before_self _ hbefore

end

/-! ## directories that imports lead to -/

def Free (parsed : List ParsedFile) (place : Place) : Prop :=
  ∀ f ∈ parsed, f.directory ≠ (Path.ofPlace place).components

/-- The directories that chains of imports lead to, through directories that hold none of the files
they begin with. -/
inductive Reached (d : Disk) (w : Walker) (m : Module) (parsed : List ParsedFile) :
    Place → Prop where
  | first {f : ParsedFile} {i : Import} {place : Place} : f ∈ parsed → i ∈ f.imports →
      m.LeadsTo d i.path place → Free parsed place → Reached d w m parsed place
  | next {here place : Place} {p : Path} {f : ParsedFile} {i : Import} : Reached d w m parsed here →
      p ∈ w.goFiles d (Path.ofPlace here) → parse d false p = .ok f → i ∈ f.imports →
      m.LeadsTo d i.path place → Free parsed place → Reached d w m parsed place

/-- A directory that was loaded: its place, the path it was found by and its files. -/
structure Load where
  place : Place
  path : Path
  files : List ParsedFile

/-- The files are those that the walk lists in the directory. -/
structure Load.Complete (d : Disk) (w : Walker) (x : Load) : Prop where
  absolute : x.path.isAbsolute = true
  located : d.locate x.path = .ok x.place
  directory : d.isDirectoryAt x.place = true
  parsed : List.Forall₂ (fun p f => parse d false p = .ok f) (w.goFiles d x.path) x.files

def Progress.after (parsed : List ParsedFile) (loads : List Load) : Progress :=
  ⟨parsed.map (·.directory) ++ loads.map fun x => (Path.ofPlace x.place).components,
    loads.flatMap (·.files)⟩

/-- What is known while imports wait. -/
structure Traced (d : Disk) (w : Walker) (m : Module) (parsed : List ParsedFile) (loads : List Load)
    (queue : List String) : Prop where
  complete : ∀ x ∈ loads, x.Complete d w
  reached : ∀ x ∈ loads, Reached d w m parsed x.place
  once : (loads.map (·.place)).Nodup
  /-- All that waits is imported by some file. -/
  queued : ∀ importPath ∈ queue, importPath ∈ importPaths (parsed ++ loads.flatMap (·.files))
  /-- Whatever is imported waits or leads to directories that are known. -/
  settled : ∀ importPath ∈ importPaths (parsed ++ loads.flatMap (·.files)), importPath ∈ queue ∨
    ∀ place, m.LeadsTo d importPath place →
      (Path.ofPlace place).components ∈ (Progress.after parsed loads).directories

theorem mem_importPaths : importPath ∈ importPaths fs ↔
    ∃ f ∈ fs, ∃ i ∈ f.imports, i.path = importPath := by
  rw [importPaths, List.mem_flatMap]
  refine exists_congr fun f => and_congr_right fun _ => List.mem_map

theorem importPaths_append (fs fs' : List ParsedFile) :
    importPaths (fs ++ fs') = importPaths fs ++ importPaths fs' := List.flatMap_append

theorem dependencies_eq (d : Disk) (w : Walker) (m : Module) (parsed : List ParsedFile) :
    dependencies d w m parsed =
      (rounds d w m (d.entries.length + 2) (.after parsed []) (importPaths parsed)).map
        (·.files) := by
  have hstart : Progress.after parsed [] = ⟨parsed.map (·.directory), []⟩ := by
    simp [Progress.after]
  rw [hstart]
  show (rounds d w m (d.entries.length + 2) ⟨parsed.map (·.directory), []⟩ (importPaths parsed) >>=
    fun progress => .ok progress.files) = _
  cases rounds d w m (d.entries.length + 2) ⟨parsed.map (·.directory), []⟩ (importPaths parsed) <;>
    rfl

theorem Progress.adding_after (parsed : List ParsedFile) (loads : List Load) (x : Load) :
    (Progress.after parsed loads).adding (Path.ofPlace x.place).components x.files =
      Progress.after parsed (loads ++ [x]) := by
  simp [Progress.after, Progress.adding]

namespace Traced

variable {loads : List Load} {dir : Path}

theorem start (d : Disk) (w : Walker) (m : Module) (parsed : List ParsedFile) :
    Traced d w m parsed [] (importPaths parsed) := by
  refine ⟨nofun, nofun, List.nodup_nil, fun i hi => ?_, fun i hi => .inl ?_⟩
  · rwa [List.flatMap_nil, List.append_nil]
  · rwa [List.flatMap_nil, List.append_nil] at hi

theorem skip (h : Traced d w m parsed loads (importPath :: queue))
    (hknown : ∀ place, m.LeadsTo d importPath place →
      (Path.ofPlace place).components ∈ (Progress.after parsed loads).directories) :
    Traced d w m parsed loads queue := by
  refine ⟨h.complete, h.reached, h.once, fun i hi => h.queued i (List.mem_cons_of_mem _ hi),
    fun i hi => ?_⟩
  rcases h.settled i hi with hwaits | hsettled
  · rcases List.mem_cons.mp hwaits with rfl | hwaits
    · exact .inr hknown
    · exact .inl hwaits
  · exact .inr hsettled

/-- The files of a directory that an import leads to are added, and what they import waits. -/
theorem load (h : Traced d w m parsed loads (importPath :: queue)) {x : Load}
    (himport : m.directoryOf? importPath = some x.path) (hcomplete : x.Complete d w)
    (hreached : Reached d w m parsed x.place)
    (hnew : (Path.ofPlace x.place).components ∉ (Progress.after parsed loads).directories) :
    Traced d w m parsed (loads ++ [x]) (queue ++ importPaths x.files) := by
  have hfiles : (loads ++ [x]).flatMap (·.files) = loads.flatMap (·.files) ++ x.files := by simp
  have hdirectories : (Progress.after parsed (loads ++ [x])).directories =
      (Progress.after parsed loads).directories ++ [(Path.ofPlace x.place).components] := by
    rw [← Progress.adding_after]
    rfl
  refine ⟨fun y hy => ?_, fun y hy => ?_, ?_, fun i hi => ?_, fun i hi => ?_⟩
  · rcases List.mem_append.mp hy with hy | hy
    · exact h.complete y hy
    · rwa [List.mem_singleton.mp hy]
  · rcases List.mem_append.mp hy with hy | hy
    · exact h.reached y hy
    · rwa [List.mem_singleton.mp hy]
  · rw [List.map_append, List.map_singleton]
    refine List.nodup_append.mpr ⟨h.once, List.nodup_singleton _,
      fun place hplace place' hplace' heq => ?_⟩
    obtain ⟨y, hy, rfl⟩ := List.mem_map.mp hplace
    apply hnew
    rw [← List.mem_singleton.mp hplace', ← heq]
    exact List.mem_append_right _ (List.mem_map.mpr ⟨y, hy, rfl⟩)
  · rw [hfiles, ← List.append_assoc, importPaths_append]
    exact List.mem_append.mpr
      ((List.mem_append.mp hi).imp_left fun hi => h.queued i (List.mem_cons_of_mem _ hi))
  · rw [hfiles, ← List.append_assoc, importPaths_append] at hi
    rcases List.mem_append.mp hi with hi | hi
    · rw [hdirectories]
      rcases h.settled i hi with hwaits | hsettled
      · rcases List.mem_cons.mp hwaits with rfl | hwaits
        · right
          rintro place ⟨dir, hdir, hlocate, -⟩
          cases himport.symm.trans hdir
          cases hcomplete.located.symm.trans hlocate
          exact List.mem_append_right _ (List.mem_singleton_self _)
        · exact .inl (List.mem_append_left _ hwaits)
      · exact .inr fun place hplace => List.mem_append_left _ (hsettled place hplace)
    · exact .inl (List.mem_append_right _ hi)

section
variable (hnamed : d.isNamed = true) (hw : w.recursive = false)
include hnamed hw

theorem reaches (h : Traced d w m parsed loads queue)
    (himport : importPath ∈ importPaths (parsed ++ loads.flatMap (·.files)))
    (hleads : m.LeadsTo d importPath place) (hfree : Free parsed place) :
    Reached d w m parsed place := by
  obtain ⟨f, hf, i, hi, rfl⟩ := mem_importPaths.mp himport
  rcases List.mem_append.mp hf with hf | hf
  · exact .first hf hi hleads hfree
  · obtain ⟨x, hx, hf⟩ := List.mem_flatMap.mp hf
    have hcomplete := h.complete x hx
    have hcanonical := Disk.locate_ofPlace hnamed hcomplete.absolute hcomplete.located
    obtain ⟨p, hp, hparse⟩ := (mem_mapM (mapM_eq_ok.mpr hcomplete.parsed)).mp hf
    obtain ⟨p', hp', here, hlocate, hlocate'⟩ := exists_of_mem_goFiles hnamed hw hcomplete.absolute
      hcomplete.located hcomplete.directory (Path.isAbsolute_ofPlace _) hcanonical hp
    obtain ⟨f', hparse', himports⟩ := exists_parse_of_locate hlocate hlocate' hparse
    rw [← himports] at hi
    exact .next (h.reached x hx) hp' hparse' hi hleads hfree

/-- After an import that waits was looked at, the same is known; the search fails only at a file of
a directory that is reached. -/
theorem dependency (hplaces : (d.entries.map (·.1)).Nodup)
    (h : Traced d w m parsed loads (importPath :: queue)) :
    (∃ e, dependency d w m (.after parsed loads) importPath = .error e ∧
      ∃ here, Reached d w m parsed here ∧
        ∃ p ∈ w.goFiles d (Path.ofPlace here), ∀ f, parse d false p ≠ .ok f) ∨
    ∃ loads' found, dependency d w m (.after parsed loads) importPath =
      .ok (.after parsed loads', found) ∧ Traced d w m parsed loads' (queue ++ found) := by
  rcases dependency_cases d w m (.after parsed loads) importPath with
    ⟨hok, hknown⟩ | ⟨dir, hdir, hdirectory, hnew, heq⟩
  · right
    refine ⟨loads, [], hok, ?_⟩
    rw [List.append_nil]
    refine h.skip ?_
    rintro place ⟨dir, hdir, hlocate, hat⟩
    rw [← Disk.canonicalOrSelf_of_locate hlocate]
    exact hknown dir hdir (Disk.isDirectory_eq_true.mpr ⟨place, hlocate, hat⟩)
  · obtain ⟨place, hlocate, hat⟩ := Disk.isDirectory_eq_true.mp hdirectory
    have habsolute := isAbsolute_of_directoryOf? hdir
    have hcanonical := Disk.locate_ofPlace hnamed habsolute hlocate
    rw [Disk.canonicalOrSelf_of_locate hlocate] at hnew heq
    have hfree : Free parsed place := fun f hf hsame =>
      hnew (List.mem_append_left _ (List.mem_map.mpr ⟨f, hf, hsame⟩))
    have hreached : Reached d w m parsed place :=
      h.reaches hnamed hw (h.queued importPath List.mem_cons_self) ⟨dir, hdir, hlocate, hat⟩ hfree
    rw [parseAll_goFiles hnamed hplaces hw habsolute hlocate hat] at heq
    cases hfiles : (w.goFiles d dir).mapM (parse d false) with
    | error e =>
      rw [hfiles] at heq
      refine .inl ⟨e, heq, place, hreached, ?_⟩
      by_contra hnone
      have hall : ∀ p ∈ w.goFiles d dir, ∃ f, parse d false p = .ok f := by
        intro p hp
        obtain ⟨p', hp', here, hlocate, hlocate'⟩ :=
          exists_of_mem_goFiles hnamed hw habsolute hlocate hat
          (Path.isAbsolute_ofPlace _) hcanonical hp
        by_contra hfails
        refine hnone ⟨p', hp', fun f' hparse' => hfails ?_⟩
        obtain ⟨f, hparse, -⟩ := exists_parse_of_locate hlocate' hlocate hparse'
        exact ⟨f, hparse⟩
      obtain ⟨files, hok⟩ := exists_mapM hall
      cases hfiles.symm.trans hok
    | ok files =>
      rw [hfiles] at heq
      have hcomplete : Load.Complete d w ⟨place, dir, files⟩ :=
        ⟨habsolute, hlocate, hat, mapM_eq_ok.mp hfiles⟩
      refine .inr ⟨loads ++ [⟨place, dir, files⟩], importPaths files, ?_,
        h.load hdir hcomplete hreached hnew⟩
      rw [← Progress.adding_after]
      exact heq

theorem search (hplaces : (d.entries.map (·.1)).Nodup) (hsearch : Search d w m s queue r)
    (hs : s = .after parsed loads) (h : Traced d w m parsed loads queue) :
    (∃ e, r = .error e ∧ ∃ here, Reached d w m parsed here ∧
      ∃ p ∈ w.goFiles d (Path.ofPlace here), ∀ f, parse d false p ≠ .ok f) ∨
    ∃ loads', r = .ok (.after parsed loads') ∧ Traced d w m parsed loads' [] := by
  induction hsearch generalizing loads with
  | done s => exact .inr ⟨loads, by rw [hs], h⟩
  | failed hfailed =>
    subst hs
    rcases h.dependency hnamed hw hplaces with ⟨e, he, hreached⟩ | ⟨loads', found, hok, -⟩
    · exact .inl ⟨_, rfl, hreached⟩
    · cases hfailed.symm.trans hok
  | next hnext _ ih =>
    subst hs
    rcases h.dependency hnamed hw hplaces with ⟨e, he, -⟩ | ⟨loads', found, hok, htraced⟩
    · cases hnext.symm.trans he
    · cases hnext.symm.trans hok
      exact ih rfl htraced

omit hw in
/-- A directory that imports lead to is known in the end; if it held no file at first, it was
loaded. -/
theorem exists_load (h : Traced d w m parsed loads [])
    (himport : importPath ∈ importPaths (parsed ++ loads.flatMap (·.files)))
    (hleads : m.LeadsTo d importPath place) :
    (∃ f ∈ parsed, f.directory = (Path.ofPlace place).components) ∨
      ∃ x ∈ loads, x.place = place := by
  have hknown := (h.settled importPath himport).resolve_left List.not_mem_nil place hleads
  obtain ⟨dir, hdir, hlocate, -⟩ := hleads
  rcases List.mem_append.mp hknown with hknown | hknown
  · exact .inl (List.mem_map.mp hknown)
  · obtain ⟨x, hx, hsame⟩ := List.mem_map.mp hknown
    have hcomplete := h.complete x hx
    refine .inr ⟨x, hx, Path.ofPlace_inj ?_ ?_ hsame⟩
    · exact Disk.named_locate hnamed hcomplete.absolute hcomplete.located
    · exact Disk.named_locate hnamed (isAbsolute_of_directoryOf? hdir) hlocate

theorem exists_file (h : Traced d w m parsed loads queue) {x : Load} (hx : x ∈ loads) {p : Path}
    (hp : p ∈ w.goFiles d (Path.ofPlace x.place)) :
    ∃ f ∈ x.files, ∃ f', parse d false p = .ok f' ∧ f'.imports = f.imports := by
  have hcomplete := h.complete x hx
  have hcanonical := Disk.locate_ofPlace hnamed hcomplete.absolute hcomplete.located
  obtain ⟨p', hp', here, hlocate, hlocate'⟩ :=
    exists_of_mem_goFiles hnamed hw (Path.isAbsolute_ofPlace _)
    hcanonical hcomplete.directory hcomplete.absolute hcomplete.located hp
  obtain ⟨f, hf, hparse⟩ := exists_of_mem_mapM (mapM_eq_ok.mpr hcomplete.parsed) hp'
  obtain ⟨f', hparse', himports⟩ := exists_parse_of_locate hlocate' hlocate hparse
  exact ⟨f, hf, f', hparse', himports⟩

/-- In the end the directories that were loaded are those that chains of imports lead to. -/
theorem mem_places_iff (h : Traced d w m parsed loads []) :
    place ∈ loads.map (·.place) ↔ Reached d w m parsed place := by
  have hload : ∀ {f i place}, f ∈ parsed ++ loads.flatMap (·.files) → i ∈ f.imports →
      m.LeadsTo d i.path place → Free parsed place → place ∈ loads.map (·.place) := by
    intro f i place hf hi hleads hfree
    rcases h.exists_load hnamed (mem_importPaths.mpr ⟨f, hf, i, hi, rfl⟩) hleads with
      ⟨g, hg, hsame⟩ | ⟨x, hx, hplace⟩
    · exact absurd hsame (hfree g hg)
    · exact List.mem_map.mpr ⟨x, hx, hplace⟩
  constructor
  · intro hplace
    obtain ⟨x, hx, rfl⟩ := List.mem_map.mp hplace
    exact h.reached x hx
  · intro hreached
    induction hreached with
    | first hf hi hleads hfree => exact hload (List.mem_append_left _ hf) hi hleads hfree
    | next _ hp hparse hi hleads hfree ih =>
      obtain ⟨x, hx, rfl⟩ := List.mem_map.mp ih
      obtain ⟨g, hg, f', hparse', himports⟩ := h.exists_file hnamed hw hx hp
      cases hparse.symm.trans hparse'
      rw [himports] at hi
      exact hload (List.mem_append_right _ (List.mem_flatMap.mpr ⟨x, hx, hg⟩)) hi hleads hfree

end

end Traced

/-- Files are loaded for the imports of other ones. -/
structure Closes (d : Disk) (w : Walker) (m : Module) (parsed fs : List ParsedFile) : Prop where
  /-- They are the Go sources of the directories that chains of imports lead to, each directory
  once. -/
  listed : ∃ loads : List Load, fs = loads.flatMap (·.files) ∧ (∀ x ∈ loads, x.Complete d w) ∧
    (loads.map (·.place)).Nodup ∧ ∀ place, place ∈ loads.map (·.place) ↔ Reached d w m parsed place
  tests : ∀ f ∈ fs, f.isTest = false ∧ f.initial = false
  apart : parsed.Pairwise ParsedFile.Elsewhere → ∀ base module,
    ((Program.assemble (parsed ++ fs) base module).files.map (·.canonical)).Nodup
  /-- No import of the module is left without its files. -/
  closed : ∀ f ∈ parsed ++ fs, ∀ i ∈ f.imports, ∀ place, m.LeadsTo d i.path place →
    (∃ g ∈ parsed ++ fs, g.directory = (Path.ofPlace place).components) ∨
      w.goFiles d (Path.ofPlace place) = []

theorem isTest_eq_false (hnamed : d.isNamed = true) (hw : w.recursive = false)
    (htests : w.includeTests = false) {x : Load} (hx : x.Complete d w) (hf : f ∈ x.files) :
    f.isTest = false ∧ f.initial = false := by
  obtain ⟨p, hp, hparse⟩ := (mem_mapM (mapM_eq_ok.mpr hx.parsed)).mp hf
  obtain ⟨name, hlists, rfl, -⟩ :=
    locate_of_mem_goFiles hnamed hw hx.absolute hx.located hx.directory hp
  obtain ⟨source, -, htext⟩ := parse_eq_ok.mp hparse
  obtain ⟨tree, package, -, -, rfl⟩ := ParsedFile.ofText_eq_ok.mp htext
  have hname : (x.path.join name).fileName? = some name := by
    rw [Path.fileName?, Path.components_join (Path.ne_empty_of_isAbsolute hx.absolute)
      (hlists.named hnamed), List.getLast?_concat]
  refine ⟨?_, rfl⟩
  have hsource := hlists.source
  simp only [Walker.isSourceName, htests, Bool.false_or, Bool.and_eq_true, Bool.not_eq_true']
    at hsource
  rw [ParsedFile.ofTree, hname]
  exact hsource.2

section
variable (hnamed : d.isNamed = true) (hplaces : (d.entries.map (·.1)).Nodup)
    (hw : w.recursive = false)
include hnamed hplaces hw

theorem Load.Complete.directory_eq {x : Load} (hx : x.Complete d w) (hf : f ∈ x.files) :
    f.directory = (Path.ofPlace x.place).components := by
  have hfiles : parseAll d false (w.goFiles d x.path) = .ok x.files := by
    rw [parseAll_goFiles hnamed hplaces hw hx.absolute hx.located hx.directory]
    exact mapM_eq_ok.mpr hx.parsed
  rw [← Disk.canonicalOrSelf_of_locate hx.located]
  exact directory_of_parseAll hnamed hw hx.absolute
    (Disk.isDirectory_eq_true.mpr ⟨x.place, hx.located, hx.directory⟩) hfiles hf

theorem Traced.closes (htests : w.includeTests = false) {loads : List Load}
    (h : Traced d w m parsed loads [])
    (hdependencies : dependencies d w m parsed = .ok (loads.flatMap (·.files))) :
    Closes d w m parsed (loads.flatMap (·.files)) := by
  refine ⟨⟨loads, rfl, h.complete, h.once, fun place => h.mem_places_iff hnamed hw⟩, ?_, ?_, ?_⟩
  · intro f hf
    obtain ⟨x, hx, hf⟩ := List.mem_flatMap.mp hf
    exact isTest_eq_false hnamed hw htests (h.complete x hx) hf
  · intro hapart base module
    obtain ⟨-, hall⟩ := dependencies_spec hnamed hw hapart hdependencies
    have hfiles : (Program.assemble (parsed ++ loads.flatMap (·.files)) base module).files.map
        (·.canonical) = ((Program.groups (parsed ++ loads.flatMap (·.files))).flatMap
          (Program.membersOf (parsed ++ loads.flatMap (·.files)))).map (·.canonical) :=
      Program.map_files_assemble (fun _ _ => rfl) _ base module
    rw [hfiles]
    exact List.pairwise_map.mpr (Program.apart_flatMap_membersOf hall)
  · intro f hf i hi place hleads
    rcases h.exists_load hnamed (mem_importPaths.mpr ⟨f, hf, i, hi, rfl⟩) hleads with
      ⟨g, hg, hsame⟩ | ⟨x, hx, rfl⟩
    · exact .inl ⟨g, List.mem_append_left _ hg, hsame⟩
    · rw [or_iff_not_imp_right]
      intro hne
      obtain ⟨p, hp⟩ := List.exists_mem_of_ne_nil _ hne
      obtain ⟨g, hg, -⟩ := h.exists_file hnamed hw hx hp
      exact ⟨g, List.mem_append_right _ (List.mem_flatMap.mpr ⟨x, hx, hg⟩),
        (h.complete x hx).directory_eq hnamed hplaces hw hg⟩

/-- The search for dependencies comes to an end, whatever packages import from each other. It
succeeds just if every Go source that imports lead to can be parsed, and then gives these, directory
by directory. -/
theorem dependencies_closure (htests : w.includeTests = false) (m : Module)
    (parsed : List ParsedFile) : (∃ r, Search d w m (.after parsed []) (importPaths parsed) r ∧
      dependencies d w m parsed = r.map (·.files)) ∧
    ((∃ fs, dependencies d w m parsed = .ok fs) ↔ ∀ place, Reached d w m parsed place →
      ∀ p ∈ w.goFiles d (Path.ofPlace place), ∃ f, parse d false p = .ok f) ∧
    ∀ fs, dependencies d w m parsed = .ok fs → Closes d w m parsed fs := by
  obtain ⟨r, hsearch, hr⟩ : ∃ r, Search d w m (.after parsed []) (importPaths parsed) r ∧
      dependencies d w m parsed = r.map (·.files) := by
    refine ⟨_, search_rounds fun _ => Nat.lt_succ_of_le (length_unknown_le d _), ?_⟩
    exact dependencies_eq d w m parsed
  refine ⟨⟨r, hsearch, hr⟩, ?_⟩
  rcases (Traced.start d w m parsed).search hnamed hw hplaces hsearch rfl with
    ⟨e, rfl, here, hreached, p, hp, hfails⟩ | ⟨loads, rfl, htraced⟩
  · -- the search fails at a file that is reached
    have hfailed : dependencies d w m parsed = .error e := hr
    rw [hfailed]
    refine ⟨⟨nofun, fun hall => ?_⟩, nofun⟩
    obtain ⟨f, hparse⟩ := hall here hreached p hp
    exact absurd hparse (hfails f)
  · have hok : dependencies d w m parsed = .ok (loads.flatMap (·.files)) := hr
    refine ⟨⟨fun _ place hreached p hp => ?_, fun _ => ⟨_, hok⟩⟩, fun fs hfs => ?_⟩
    · obtain ⟨x, hx, rfl⟩ := List.mem_map.mp ((htraced.mem_places_iff hnamed hw).mpr hreached)
      obtain ⟨-, -, f, hparse, -⟩ := htraced.exists_file hnamed hw hx hp
      exact ⟨f, hparse⟩
    · cases hok.symm.trans hfs
      exact htraced.closes hnamed hplaces hw htests hok

end

def cyclicDisk : Disk where
  entries := [(["w"], .directory), (["w", "a"], .directory), (["w", "b"], .directory),
    (["w", "c"], .directory), (["w", "a", "a.go"], .file "package a\nimport \"m/b\"\n".toUTF8),
    (["w", "b", "b.go"], .file "package b\nimport (\n\"m/a\"\n\"m/c/../b\"\n\"m/c\"\n)\n".toUTF8)]
  cwd := []

theorem dependencies_closure_cyclic : ∃ parsed fs,
    parseAll cyclicDisk true [⟨"/w/a/a.go"⟩] = .ok parsed ∧
    dependencies cyclicDisk ⟨fun _ => false, false, false⟩ ⟨["w"], "m"⟩ parsed = .ok fs ∧
    fs.map (·.path) = [⟨"/w/b/b.go"⟩] ∧
    Closes cyclicDisk ⟨fun _ => false, false, false⟩ ⟨["w"], "m"⟩ parsed fs ∧
    ((Program.assemble (parsed ++ fs) [] (some "m")).files.map (·.canonical)).Nodup := by
  have hchecked : (parseAll cyclicDisk true [⟨"/w/a/a.go"⟩]).toOption.any (fun parsed =>
      (dependencies cyclicDisk ⟨fun _ => false, false, false⟩ ⟨["w"], "m"⟩ parsed).toOption.any
        fun fs =>
        fs.map (·.path) == [⟨"/w/b/b.go"⟩]) = true := by decide +kernel
  obtain ⟨parsed, hparsed, hchecked⟩ := any_toOption.mp hchecked
  obtain ⟨fs, hfs, hpaths⟩ := any_toOption.mp hchecked
  have hcloses := (dependencies_closure (by decide +kernel) (by decide) rfl rfl _ parsed).2.2 fs hfs
  exact ⟨parsed, fs, hparsed, hfs, by simpa using hpaths, hcloses,
    hcloses.apart (parseAll_spec hparsed).2 [] (some "m")⟩

end Loading

end ParamThreading
