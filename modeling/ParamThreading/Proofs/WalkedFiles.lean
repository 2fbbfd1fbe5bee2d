import Mathlib.Data.List.Nodup
import ParamThreading.Proofs.PathOrder
import ParamThreading.Proofs.ShownPaths

/-!
# The Go sources that a walk finds

On a disk without ignore files they are known from the names below the root: a file is found if its
name is that of a Go source and every directory on the way to it is open. Extra patterns are
compared with these names, both for directories and for files; for files, however, only as long as
the root does not begin with a dot and go on. Such a root is shown without the dot, so that it is no
beginning of what it holds, and files are compared as they are shown.

* `Walker.mem_goFiles`, `Walker.nodup_filesBelow`  a walk over the entries of a disk;
* `IgnoreFile.verdict_eq_silent`  without ignore files nothing is said of any entry;
* `Walker.Finds`  the files that a walk comes to, before patterns are applied to them;
* `Walker.goFiles_patterns`  the list of a walk, and when it agrees with patterns relative to the
  root.
-/

namespace ParamThreading

/-! ## sorted paths -/

namespace Path

variable {l l' : List Path}

def Before (p q : Path) : Prop := Component.compareAll p.components q.components = .lt

theorem not_before_self (p : Path) : ¬ p.Before p := by
  intro h
  have hself : Component.compareAll p.components p.components = .eq := Std.ReflCmp.compare_self
  rw [Before, hself] at h
  cases h

theorem sorted_mergeSort (h : l.Pairwise fun p q => p.components ≠ q.components) :
    (l.mergeSort le).Pairwise Before := by
  have hle : (l.mergeSort le).Pairwise fun p q => le p q = true :=
    List.pairwise_mergeSort (fun p q r => Std.TransCmp.isLE_trans)
      (fun p q => isLE_total Component.compareAll _ _) l
  have hne : (l.mergeSort le).Pairwise fun p q => p.components ≠ q.components :=
    ((List.mergeSort_perm l le).pairwise_iff Ne.symm).mpr h
  refine (hle.and hne).imp fun {p q} hpq => ?_
  obtain ⟨hle, hne⟩ := hpq
  unfold Before
  unfold le at hle
  cases hcompare : Component.compareAll p.components q.components with
  | lt => rfl
  | eq => exact absurd (Std.LawfulEqCmp.eq_of_compare hcompare) hne
  | gt =>
    rw [hcompare] at hle
    cases hle

theorem eq_of_sorted (h : l.Pairwise Before) (h' : l'.Pairwise Before)
    (hmem : ∀ p, p ∈ l ↔ p ∈ l') : l = l' := by
  have hnodup : ∀ {l : List Path}, l.Pairwise Before → l.Nodup := by
    intro l hl
    refine hl.imp fun {p q} hpq heq => ?_
    rw [heq] at hpq
    exact not_before_self q hpq
  have hperm := (List.perm_ext_iff_of_nodup (hnodup h) (hnodup h')).mpr hmem
  refine hperm.eq_of_pairwise (fun p q _ _ hpq hqp => ?_) h h'
  have hswap : Component.compareAll p.components q.components =
      (Component.compareAll q.components p.components).swap := Std.OrientedCmp.eq_swap
  rw [Before, hswap, hqp] at hpq
  cases hpq

end Path

/-! ## entries below a place -/

namespace Disk

variable {d : Disk} {place : Place} {e : Entry}

theorem entry?_of_mem (hplaces : (d.entries.map (·.1)).Nodup) (hne : place ≠ [])
    (h : (place, e) ∈ d.entries) : d.entry? place = some e := by
  rw [entry?_of_ne d hne]
  obtain ⟨before, after, hentries⟩ := List.append_of_mem h
  refine List.lookup_eq_some_iff.mpr ⟨before, after, hentries, fun x hx => ?_⟩
  rw [hentries, List.map_append, List.map_cons] at hplaces
  have hother := (List.nodup_middle.mp hplaces).notMem
  rw [bne_iff_ne]
  intro hsame
  apply hother
  rw [hsame]
  exact List.mem_append_left _ (List.mem_map.mpr ⟨x, hx, rfl⟩)

theorem isFileAt_iff (hplaces : (d.entries.map (·.1)).Nodup) (hne : place ≠ []) :
    d.isFileAt place = true ↔ ∃ e, e.isDirectory = false ∧ (place, e) ∈ d.entries := by
  rw [isFileAt, Option.any_eq_true]
  constructor
  · rintro ⟨e, he, hfile⟩
    exact ⟨e, by simpa using hfile, mem_entries_of_eq_some hne he⟩
  · rintro ⟨e, hfile, he⟩
    exact ⟨e, entry?_of_mem hplaces hne he, by simpa using hfile⟩

end Disk

namespace Walker

variable {w : Walker} {d : Disk} {root p : Path} {base : Place} {names : List String}

theorem mem_filesBelow : names ∈ filesBelow d base ↔
    names ≠ [] ∧ ∃ e, e.isDirectory = false ∧ (base ++ names, e) ∈ d.entries := by
  rw [filesBelow, List.mem_filterMap]
  constructor
  · rintro ⟨⟨place, e⟩, hmem, hnames⟩
    simp only [Option.ite_none_right_eq_some, Option.some.injEq, Bool.and_eq_true, bne_iff_ne,
      Bool.not_eq_true', List.isPrefixOf_iff_prefix] at hnames
    obtain ⟨⟨⟨hfile, rest, rfl⟩, hne⟩, rfl⟩ := hnames
    rw [List.drop_left]
    refine ⟨?_, e, hfile, hmem⟩
    rintro rfl
    exact hne (List.append_nil base)
  · rintro ⟨hne, e, hfile, hmem⟩
    refine ⟨(base ++ names, e), hmem, ?_⟩
    simp [hfile, hne]

theorem nodup_filesBelow (hplaces : (d.entries.map (·.1)).Nodup) (base : Place) :
    (filesBelow d base).Nodup := by
  have hentries : d.entries.Pairwise fun x y => x.1 ≠ y.1 := List.pairwise_map.mp hplaces
  refine List.pairwise_filterMap.mpr (hentries.imp fun {x y} hxy names hnames names' hnames' => ?_)
  simp only [Option.ite_none_right_eq_some, Option.some.injEq, Bool.and_eq_true, bne_iff_ne,
    List.isPrefixOf_iff_prefix] at hnames hnames'
  obtain ⟨⟨⟨-, rest, hx⟩, -⟩, rfl⟩ := hnames
  obtain ⟨⟨⟨-, rest', hy⟩, -⟩, rfl⟩ := hnames'
  rw [← hx, ← hy, List.drop_left, List.drop_left]
  rintro rfl
  exact hxy (hx.symm.trans hy)

/-- The files of a walk below a directory. -/
theorem mem_goFiles (hbase : d.locate root = .ok base) (hdir : d.isDirectoryAt base = true) :
    p ∈ w.goFiles d root ↔ ∃ names ∈ filesBelow d base, w.reaches d base names = true ∧
      w.isGoSource (root.below names) = true ∧
      w.excludes (comparedAs root (root.below names) names) = false ∧ root.below names = p := by
  unfold goFiles
  rw [hbase]
  simp only [Disk.isFileAt_of_isDirectoryAt hdir, List.mem_mergeSort, List.mem_filterMap,
    Option.ite_none_right_eq_some, Option.some.injEq, List.mem_filter, Bool.and_eq_true,
      Bool.not_eq_true',
    Bool.false_eq_true, ↓reduceIte, and_assoc, Path.below]

end Walker

/-! ## disks without ignore files -/

namespace IgnoreFile

def isPlace (place : Place) : Bool :=
  place.getLast?.any (fun name => name == ".ignore" || name == ".gitignore") ||
    [".git", "info", "exclude"].isSuffixOf place

end IgnoreFile

def Disk.hasIgnoreFiles (d : Disk) : Bool :=
  d.entries.any fun x => !x.2.isDirectory && IgnoreFile.isPlace x.1

namespace IgnoreFile

variable {d : Disk} {name : List String}

theorem verdictOf_eq_silent (hd : d.hasIgnoreFiles = false) (place : Place) (isDirectory : Bool)
    (hname : ∀ dir : Place, isPlace (dir ++ name) = true) (dir : Place) :
    verdictOf d place isDirectory name dir = .silent := by
  have hempty : textAt d (dir ++ name) = "" := by
    unfold textAt
    split
    case h_1 content hentry =>
      have hne : dir ++ name ≠ [] := by
        intro hnil
        rw [hnil] at hentry
        cases hentry
      have hmem := Disk.mem_entries_of_eq_some hne hentry
      have hnone := List.any_eq_false.mp hd _ hmem
      rw [hname dir] at hnone
      exact absurd rfl hnone
    case h_2 => rfl
  rw [verdictOf, hempty]
  rfl

theorem first_eq_silent {verdicts : List Verdict} (h : ∀ v ∈ verdicts, v = .silent) :
    Verdict.first verdicts = .silent := by
  induction verdicts with
  | nil => rfl
  | cons v verdicts ih =>
    obtain ⟨rfl, hrest⟩ := List.forall_mem_cons.mp h
    exact ih hrest

theorem verdict_eq_silent (hd : d.hasIgnoreFiles = false) (place : Place) (isDirectory : Bool) :
    verdict d place isDirectory = .silent := by
  have hsay : ∀ name : List String, (∀ dir : Place, isPlace (dir ++ name) = true) →
      ∀ dirs : List Place,
      Verdict.first (dirs.map (verdictOf d place isDirectory name)) = .silent := by
    intro name hname dirs
    refine first_eq_silent fun v hv => ?_
    obtain ⟨dir, -, rfl⟩ := List.mem_map.mp hv
    exact verdictOf_eq_silent hd place isDirectory hname dir
  have hignore := hsay [".ignore"] (by simp [isPlace])
  have hgit := hsay [".gitignore"] (by simp [isPlace])
  have hexclude := hsay [".git", "info", "exclude"] fun dir => by simp [isPlace]
  simp only [verdict, hignore, hgit, hexclude]
  rfl

end IgnoreFile

/-! ## files by their names -/

namespace Walker

variable {w : Walker} {d : Disk} {root p : Path} {base : Place} {names above : List String}

def isSourceName (w : Walker) (name : String) : Bool :=
  endsIn name ".go" && !beginsWith name '.' && !beginsWith name '_' &&
    (w.includeTests || !endsIn name "_test.go")

/-- Whether the directory with these names below the root is looked into: it is not hidden, not for
test data, does not begin with an underscore and is not excluded. -/
def opens (w : Walker) (names : List String) : Bool :=
  !w.excludes ("/".intercalate names) &&
    !names.getLast?.any fun name => beginsWith name '.' || name == "testdata" || beginsWith name '_'

/-- The walk comes to a Go source with these names below the base. -/
structure Finds (w : Walker) (d : Disk) (base : Place) (names : List String) : Prop where
  file : d.isFileAt (base ++ names) = true
  source : names.getLast?.any w.isSourceName = true
  depth : w.recursive = false → names.length = 1
  opened : ∀ above, above <+: names → above ≠ [] → above ≠ names → w.opens above = true

theorem Finds.ne_nil (h : w.Finds d base names) : names ≠ [] := by
  rintro rfl
  cases h.source

theorem Finds.named (hd : d.isNamed = true) (h : w.Finds d base names) :
    ∀ name ∈ names, isFileName name = true := by
  have hsome : (d.entry? (base ++ names)).isSome = true := by
    have hfile := h.file
    rw [Disk.isFileAt, Option.any_eq_true] at hfile
    obtain ⟨e, he, -⟩ := hfile
    rw [he]
    rfl
  exact fun name hname => Disk.named_of_entry hd hsome name (List.mem_append_right _ hname)

theorem isGoSource_below (hroot : root.text ≠ "") (h : ∀ name ∈ names, isFileName name = true)
    (hne : names ≠ []) : w.isGoSource (root.below names) = names.getLast?.any w.isSourceName := by
  obtain rfl | ⟨above, name, rfl⟩ := List.eq_nil_or_concat' names
  · exact absurd rfl hne
  · have hname : (root.below (above ++ [name])).fileName? = some name := by
      rw [Path.fileName?, Path.components_below hroot h, List.map_append, ← List.append_assoc,
        List.map_singleton, List.getLast?_concat]
    rw [isGoSource, hname, List.getLast?_concat]
    rfl

theorem passes_eq (hd : d.hasIgnoreFiles = false) (hne : names ≠ []) (isDirectory : Bool) :
    passes d (base ++ names) isDirectory = !names.getLast?.any (beginsWith · '.') := by
  rw [passes, IgnoreFile.verdict_eq_silent hd, List.getLast?_append_of_ne_nil _ hne]

theorem enters_eq (hd : d.hasIgnoreFiles = false) (hne : names ≠ []) :
    w.enters d base names = w.opens names := by
  rw [enters, passes_eq hd hne, opens]
  cases names.getLast? with
  | none => simp
  | some name =>
    simp only [Option.any_some]
    cases beginsWith name '.' <;> simp

theorem enters_all_iff (hd : d.hasIgnoreFiles = false) :
    ((List.range names.length).tail.all fun k => w.enters d base (names.take k)) = true ↔
      ∀ above, above <+: names → above ≠ [] → above ≠ names → w.opens above = true := by
  simp only [List.all_eq_true, List.tail_range, List.mem_range'_1]
  constructor
  · intro h above habove hsome hother
    have hshort : above.length < names.length :=
      Nat.lt_of_le_of_ne habove.length_le fun heq => hother (habove.eq_of_length heq)
    have hstart : 0 < above.length := List.length_pos_iff.mpr hsome
    have henters := h above.length (by omega)
    rwa [← List.prefix_iff_eq_take.mp habove, enters_eq hd hsome] at henters
  · intro h k hk
    have hlength : (names.take k).length = k := by
      rw [List.length_take]
      omega
    have hsome : names.take k ≠ [] := by
      rw [← List.length_pos_iff, hlength]
      omega
    rw [enters_eq hd hsome]
    apply h _ (List.take_prefix k names) hsome
    intro hall
    rw [hall] at hlength
    omega

theorem reaches_iff (hd : d.hasIgnoreFiles = false) (hne : names ≠ [])
    (hsource : names.getLast?.any w.isSourceName = true) :
    w.reaches d base names = true ↔ (w.recursive = false → names.length = 1) ∧
      ∀ above, above <+: names → above ≠ [] → above ≠ names → w.opens above = true := by
  -- a Go source is not hidden
  have hvisible : passes d (base ++ names) false = true := by
    rw [passes_eq hd hne]
    rw [Option.any_eq_true] at hsource
    obtain ⟨name, hname, hsource⟩ := hsource
    simp only [isSourceName, Bool.and_eq_true] at hsource
    rw [hname]
    exact hsource.1.1.2
  have hpositive : 0 < names.length := List.length_pos_iff.mpr hne
  have hdepth : (w.recursive || decide (names.length ≤ 1)) = true ↔
      (w.recursive = false → names.length = 1) := by
    cases w.recursive
    · simp
      omega
    · simp
  rw [reaches, Bool.and_eq_true, Bool.and_eq_true, hdepth, enters_all_iff hd, hvisible]
  tauto

/-! ## files of one directory -/

/-- The walk lists the file of this name in a directory, if it does not look into others. -/
structure Lists (w : Walker) (d : Disk) (base : Place) (name : String) : Prop where
  below : [name] ∈ filesBelow d base
  reached : w.reaches d base [name] = true
  source : w.isSourceName name = true
  kept : w.excludes name = false

theorem named_of_mem_filesBelow (hd : d.isNamed = true) (h : names ∈ filesBelow d base) :
    ∀ name ∈ names, isFileName name = true := by
  obtain ⟨-, e, -, hmem⟩ := mem_filesBelow.mp h
  exact fun name hname => List.all_eq_true.mp (List.all_eq_true.mp hd _ hmem) name
    (List.mem_append_right _ hname)

theorem Lists.named {name : String} (hd : d.isNamed = true) (h : w.Lists d base name) :
    isFileName name = true :=
  named_of_mem_filesBelow hd h.below name (List.mem_singleton_self name)

theorem Lists.entry {name : String} (h : w.Lists d base name) :
    (d.entry? (base ++ [name])).isSome = true := by
  obtain ⟨-, e, -, hmem⟩ := mem_filesBelow.mp h.below
  rw [Disk.entry?_of_ne d (by simp)]
  by_contra hnone
  rw [Bool.not_eq_true, Option.isSome_eq_false_iff, Option.isNone_iff_eq_none,
    List.lookup_eq_none_iff] at hnone
  simpa using hnone _ hmem

/-- Whatever path from the root a directory is found by, the same names are listed in it. -/
theorem mem_goFiles_of_isAbsolute (hd : d.isNamed = true) (hw : w.recursive = false)
    (hroot : root.isAbsolute = true) (hbase : d.locate root = .ok base)
    (hdir : d.isDirectoryAt base = true) :
    p ∈ w.goFiles d root ↔ ∃ name, w.Lists d base name ∧ p = root.join name := by
  have htext := Path.ne_empty_of_isAbsolute hroot
  have hshown : ∀ name, root.below [name] = root.join name := fun name =>
    Path.withoutDot_of_isAbsolute (Path.isAbsolute_join hroot name)
  have hlists : ∀ name, [name] ∈ filesBelow d base →
      w.isGoSource (root.below [name]) = w.isSourceName name ∧
      comparedAs root (root.below [name]) [name] = name := by
    intro name hbelow
    have hnamed := named_of_mem_filesBelow hd hbelow
    have hsource : w.isGoSource (root.below [name]) = w.isSourceName name :=
      isGoSource_below htext hnamed (List.cons_ne_nil _ _)
    refine ⟨hsource, ?_⟩
    rw [comparedAs_below htext hnamed (List.cons_ne_nil _ _), Path.isDotted_of_isAbsolute hroot]
    simp
  rw [mem_goFiles hbase hdir]
  constructor
  · rintro ⟨names, hbelow, hreaches, hsource, hkept, rfl⟩
    have hlength : names.length ≤ 1 := by
      have hreaches := hreaches
      simp only [reaches, hw, Bool.false_or, Bool.and_eq_true, decide_eq_true_eq] at hreaches
      exact hreaches.1.1
    have hne : names ≠ [] := (mem_filesBelow.mp hbelow).1
    obtain ⟨name, rfl⟩ : ∃ name, names = [name] :=
      List.length_eq_one_iff.mp (Nat.le_antisymm hlength (List.length_pos_iff.mpr hne))
    obtain ⟨hsourceName, hcompared⟩ := hlists name hbelow
    rw [hsourceName] at hsource
    rw [hcompared] at hkept
    exact ⟨name, ⟨hbelow, hreaches, hsource, hkept⟩, hshown name⟩
  · rintro ⟨name, hname, rfl⟩
    obtain ⟨hsourceName, hcompared⟩ := hlists name hname.below
    refine ⟨[name], hname.below, hname.reached, ?_, ?_, hshown name⟩
    · rw [hsourceName]
      exact hname.source
    · rw [hcompared]
      exact hname.kept

/-! ## patterns -/

/-- What patterns are compared with for the file with these names below the root. -/
def comparedText (root : Path) (names : List String) : String :=
  if root.isDotted then (root.below names).text else "/".intercalate names

/-- Patterns say the same of the files that the walk comes to, whether they are compared as they are
shown or by the names below the root. -/
def PatternsAgree (w : Walker) (d : Disk) (root : Path) (base : Place) : Prop :=
  ∀ names, w.Finds d base names →
    w.excludes (root.below names).text = w.excludes ("/".intercalate names)

section
variable (hnamed : d.isNamed = true) (hplaces : (d.entries.map (·.1)).Nodup)
  (hbase : d.locate root = .ok base) (hdir : d.isDirectoryAt base = true)

theorem text_ne_of_locate (h : d.locate root = .ok base) : root.text ≠ "" := by
  intro hempty
  rw [Disk.locate, hempty] at h
  cases h

include hnamed hplaces hbase hdir

theorem mem_goFiles_iff_finds (hplain : d.hasIgnoreFiles = false) : p ∈ w.goFiles d root ↔
    ∃ names, w.Finds d base names ∧ w.excludes (comparedText root names) = false ∧
      root.below names = p := by
  have hroot := text_ne_of_locate hbase
  rw [mem_goFiles hbase hdir]
  constructor
  · rintro ⟨names, hbelow, hreaches, hsource, hexcludes, rfl⟩
    obtain ⟨hne, hentry⟩ := mem_filesBelow.mp hbelow
    have hplace : base ++ names ≠ [] := fun hnil => hne (List.append_eq_nil_iff.mp hnil).2
    have hall := named_of_mem_filesBelow hnamed hbelow
    rw [isGoSource_below hroot hall hne] at hsource
    rw [comparedAs_below hroot hall hne] at hexcludes
    obtain ⟨hdepth, hopened⟩ := (reaches_iff hplain hne hsource).mp hreaches
    exact ⟨names, ⟨(Disk.isFileAt_iff hplaces hplace).mpr hentry, hsource, hdepth, hopened⟩,
      hexcludes, rfl⟩
  · rintro ⟨names, hfinds, hexcludes, rfl⟩
    have hne := hfinds.ne_nil
    have hall := hfinds.named hnamed
    have hplace : base ++ names ≠ [] := fun hnil => hne (List.append_eq_nil_iff.mp hnil).2
    refine ⟨names, mem_filesBelow.mpr ⟨hne, (Disk.isFileAt_iff hplaces hplace).mp hfinds.file⟩,
      (reaches_iff hplain hne hfinds.source).mpr ⟨hfinds.depth, hfinds.opened⟩, ?_, ?_, rfl⟩
    · rw [isGoSource_below hroot hall hne]
      exact hfinds.source
    · rw [comparedAs_below hroot hall hne]
      exact hexcludes

/-- Whether a file that the walk comes to is listed is a matter of what it is compared as. -/
theorem below_mem_goFiles (hplain : d.hasIgnoreFiles = false) (hfinds : w.Finds d base names) :
    root.below names ∈ w.goFiles d root ↔ w.excludes (comparedText root names) = false := by
  rw [mem_goFiles_iff_finds hnamed hplaces hbase hdir hplain]
  constructor
  · rintro ⟨names', hfinds', hexcludes, heq⟩
    have hsame :=
      Path.below_inj (text_ne_of_locate hbase) (hfinds'.named hnamed) (hfinds.named hnamed)
      (congrArg Path.components heq)
    rwa [← hsame]
  · intro hexcludes
    exact ⟨names, hfinds, hexcludes, rfl⟩

theorem sorted_goFiles (w : Walker) : (w.goFiles d root).Pairwise Path.Before := by
  have hroot := text_ne_of_locate hbase
  unfold goFiles
  rw [hbase]
  simp only [Disk.isFileAt_of_isDirectoryAt hdir, Bool.false_eq_true, ↓reduceIte]
  refine Path.sorted_mergeSort (List.pairwise_filterMap.mpr ?_)
  refine ((nodup_filesBelow hplaces base).filter _).imp_of_mem ?_
  intro names names' hnames hnames' hne p hp q hq heq
  simp only [Option.ite_none_right_eq_some, Option.some.injEq] at hp hq
  rw [← hp.2, ← hq.2] at heq
  exact hne (Path.below_inj hroot (named_of_mem_filesBelow hnamed (List.mem_filter.mp hnames).1)
    (named_of_mem_filesBelow hnamed (List.mem_filter.mp hnames').1) heq)

theorem relative_iff_agree (hplain : d.hasIgnoreFiles = false) :
    (∀ names, w.Finds d base names →
      (root.below names ∈ w.goFiles d root ↔ w.excludes ("/".intercalate names) = false)) ↔
    root.isDotted = false ∨ w.PatternsAgree d root base := by
  have hlisted : ∀ names, w.Finds d base names → (root.below names ∈ w.goFiles d root ↔
      w.excludes (comparedText root names) = false) :=
    fun names hfinds => below_mem_goFiles hnamed hplaces hbase hdir hplain hfinds
  cases hdotted : root.isDotted with
  | false =>
    simp only [true_or, iff_true]
    intro names hfinds
    rw [hlisted names hfinds, comparedText, hdotted, if_neg Bool.false_ne_true]
  | true =>
    simp only [Bool.true_eq_false, false_or]
    refine forall₂_congr fun names hfinds => ?_
    rw [hlisted names hfinds, comparedText, hdotted, if_pos rfl]
    rw [Bool.coe_false_iff_false, Bool.not_inj_iff]

theorem goFiles_withDot_iff (hplain : d.hasIgnoreFiles = false) (hroot : root.isPlain = true) :
    w.goFiles d root.withDot = w.goFiles d root ↔ w.PatternsAgree d root base := by
  have hbase' : d.locate root.withDot = .ok base := (Path.locate_withDot d hroot).trans hbase
  have hshown : ∀ names, w.Finds d base names → root.withDot.below names = root.below names :=
    fun names hfinds => Path.below_withDot hroot (hfinds.named hnamed)
  have hplainText : ∀ names, comparedText root names = "/".intercalate names := by
    intro names
    rw [comparedText, Path.isDotted_of_isPlain hroot, if_neg Bool.false_ne_true]
  have hdottedText : ∀ names, w.Finds d base names →
      comparedText root.withDot names = (root.below names).text := by
    intro names hfinds
    rw [comparedText, Path.isDotted_withDot hroot, if_pos rfl, hshown names hfinds]
  constructor
  · intro heq names hfinds
    have hmem := below_mem_goFiles hnamed hplaces hbase hdir hplain hfinds
    have hmem' := below_mem_goFiles hnamed hplaces hbase' hdir hplain hfinds
    rw [hplainText] at hmem
    rw [heq, hshown names hfinds, hdottedText names hfinds] at hmem'
    exact Bool.not_inj_iff.mp (Bool.coe_false_iff_false.mp (hmem'.symm.trans hmem))
  · intro hagree
    refine Path.eq_of_sorted (sorted_goFiles hnamed hplaces hbase' hdir w)
      (sorted_goFiles hnamed hplaces hbase hdir w) fun p => ?_
    rw [mem_goFiles_iff_finds hnamed hplaces hbase' hdir hplain,
      mem_goFiles_iff_finds hnamed hplaces hbase hdir hplain]
    refine exists_congr fun names => and_congr_right fun hfinds => ?_
    rw [hplainText, hdottedText names hfinds, hshown names hfinds, hagree names hfinds]

/-- A walk lists the Go sources that it comes to in the order of their paths, each once, but for
those that patterns exclude. Files are compared with patterns by the names below the root, as
directories are, if the root does not begin with a dot and go on; otherwise they are compared as
they are shown, so that a dot in front of a root changes what is listed exactly if some pattern
tells the two apart. -/
theorem goFiles_patterns (hplain : d.hasIgnoreFiles = false) :
    (w.goFiles d root).Pairwise Path.Before ∧
      (∀ p, p ∈ w.goFiles d root ↔ ∃ names, w.Finds d base names ∧
        w.excludes (comparedText root names) = false ∧ root.below names = p) ∧
      ((∀ names, w.Finds d base names → (root.below names ∈ w.goFiles d root ↔
          w.excludes ("/".intercalate names) = false)) ↔
        root.isDotted = false ∨ w.PatternsAgree d root base) ∧
      (root.isPlain = true →
        (w.goFiles d root.withDot = w.goFiles d root ↔ w.PatternsAgree d root base)) :=
  ⟨sorted_goFiles hnamed hplaces hbase hdir w,
    fun _ => mem_goFiles_iff_finds hnamed hplaces hbase hdir hplain,
    relative_iff_agree hnamed hplaces hbase hdir hplain,
    goFiles_withDot_iff hnamed hplaces hbase hdir hplain⟩

end

/-- The pattern `a.go` excludes a file of the directory `d`, but not if the directory is called
`./d`. -/
theorem goFiles_patterns_dot :
    let d : Disk := ⟨[(["d"], .directory), (["d", "a.go"], .file ⟨#[]⟩)], []⟩
    let w : Walker := ⟨(· == "a.go"), false, false⟩
    w.Finds d ["d"] ["a.go"] ∧ ⟨"d/a.go"⟩ ∉ w.goFiles d ⟨"d"⟩ ∧ ⟨"d/a.go"⟩ ∈ w.goFiles d ⟨"./d"⟩ ∧
      ¬ w.PatternsAgree d ⟨"d"⟩ ["d"] := by
  intro d w
  have hnamed : d.isNamed = true := by decide +kernel
  have hplaces : (d.entries.map (·.1)).Nodup := by decide
  have hfinds : w.Finds d ["d"] ["a.go"] := by
    refine ⟨by decide +kernel, by decide +kernel, fun _ => rfl, fun above habove hsome hother => ?_⟩
    obtain hnil | ⟨rest, hrest, hbegins⟩ := List.prefix_cons_iff.mp habove
    · exact absurd hnil hsome
    · rw [List.prefix_nil.mp hbegins] at hrest
      exact absurd hrest hother
  have hbase : d.locate ⟨"d"⟩ = .ok ["d"] := by decide +kernel
  have hbase' : d.locate ⟨"./d"⟩ = .ok ["d"] := by decide +kernel
  obtain ⟨-, -, hrelative, hdot⟩ :=
    goFiles_patterns (w := w) hnamed hplaces hbase (by decide) (by decide +kernel)
  obtain ⟨-, hlisted, -, -⟩ :=
    goFiles_patterns (w := w) hnamed hplaces hbase' (by decide) (by decide +kernel)
  have hout : ⟨"d/a.go"⟩ ∉ w.goFiles d ⟨"d"⟩ := by
    have hshown : Path.below ⟨"d"⟩ ["a.go"] = ⟨"d/a.go"⟩ := by decide +kernel
    rw [← hshown, hrelative.mpr (.inl (by decide +kernel)) ["a.go"] hfinds]
    decide +kernel
  have hin : ⟨"d/a.go"⟩ ∈ w.goFiles d ⟨"./d"⟩ :=
    (hlisted _).mpr ⟨["a.go"], hfinds, by decide +kernel, by decide +kernel⟩
  refine ⟨hfinds, hout, hin, fun hagree => hout ?_⟩
  rwa [← (hdot (by decide +kernel)).mpr hagree]

end Walker

end ParamThreading
