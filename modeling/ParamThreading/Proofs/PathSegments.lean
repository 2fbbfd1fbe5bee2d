import Mathlib.Data.List.Induction
import ParamThreading.Proofs.DiskPlaces

/-!
# Paths and the names in them

The path of a place has its names for components, and the path of a name in a directory leads from
there to the name.

* `Cut.fields_append`, `Cut.fields_intercalate`  what stands between separators;
* `isFileName`, `Disk.Named`  names that can stand in a path, and disks that have no others;
* `Path.components_ofPlace`, `Path.directory_ofPlace`  the components of a place and of its
  directory;
* `Path.text_eq`, `Path.segments_intercalate`  paths and what stands between their separators;
* `Disk.named_locate`  a path from the root leads along names of the disk;
* `Disk.locate_join_eq_step`, `Disk.locate_ofPlace`  where the path of a name in a directory leads
  to, and the path of a place.
-/

namespace ParamThreading

/-! ## fields -/

namespace Cut

variable {sep : Char}

theorem fields_ne_nil (sep : Char) (cs : List Char) : fields sep cs ≠ [] := by
  induction cs with
  | nil => simp [fields]
  | cons c cs ih =>
    unfold fields
    split
    · simp
    · split <;> simp

theorem fields_append (cs cs' : List Char) :
    fields sep (cs ++ sep :: cs') = fields sep cs ++ fields sep cs' := by
  induction cs with
  | nil => simp [fields]
  | cons c cs ih =>
    simp only [List.cons_append, fields]
    by_cases hc : c = sep
    · simp [hc, ih]
    · rw [if_neg hc, if_neg hc, ih]
      cases hfields : fields sep cs with
      | nil => exact absurd hfields (fields_ne_nil sep cs)
      | cons first rest => rfl

theorem fields_of_not_mem {cs : List Char} (h : sep ∉ cs) : fields sep cs = [cs] := by
  induction cs with
  | nil => rfl
  | cons c cs ih =>
    obtain ⟨hc, hcs⟩ := not_or.mp (mt List.mem_cons.mpr h)
    rw [fields, if_neg (Ne.symm hc), ih hcs]

theorem fields_intercalate {parts : List (List Char)} (hne : parts ≠ [])
    (h : ∀ part ∈ parts, sep ∉ part) : fields sep ([sep].intercalate parts) = parts := by
  induction parts with
  | nil => exact absurd rfl hne
  | cons part parts ih =>
    obtain ⟨hpart, hparts⟩ := List.forall_mem_cons.mp h
    cases parts with
    | nil => simpa using fields_of_not_mem hpart
    | cons next rest =>
      have hjoined : [sep].intercalate (part :: next :: rest) =
          part ++ sep :: [sep].intercalate (next :: rest) := by simp
      rw [hjoined, fields_append, fields_of_not_mem hpart, ih (List.cons_ne_nil _ _) hparts]
      rfl

theorem intercalate_fields (cs : List Char) : [sep].intercalate (fields sep cs) = cs := by
  induction cs with
  | nil => simp [fields]
  | cons c cs ih =>
    have hne := fields_ne_nil sep cs
    by_cases hc : c = sep
    · rw [fields, if_pos hc]
      cases hfields : fields sep cs with
      | nil => exact absurd hfields hne
      | cons first rest =>
        rw [hfields] at ih
        simp [ih, hc]
    · rw [fields, if_neg hc]
      cases hfields : fields sep cs with
      | nil => exact absurd hfields hne
      | cons first rest =>
        rw [hfields] at ih
        rw [← ih]
        cases rest <;> simp

theorem not_mem_of_mem_fields {cs field : List Char} (h : field ∈ fields sep cs) : sep ∉ field := by
  induction cs generalizing field with
  | nil =>
    rw [List.mem_singleton.mp h]
    exact List.not_mem_nil
  | cons c cs ih =>
    by_cases hc : c = sep
    · rw [fields, if_pos hc] at h
      rcases List.mem_cons.mp h with rfl | h
      · exact List.not_mem_nil
      · exact ih h
    · rw [fields, if_neg hc] at h
      cases hfields : fields sep cs with
      | nil => exact absurd hfields (fields_ne_nil sep cs)
      | cons first rest =>
        rw [hfields] at h ih
        rcases List.mem_cons.mp h with rfl | h
        · rw [List.mem_cons, not_or]
          exact ⟨Ne.symm hc, ih List.mem_cons_self⟩
        · exact ih (List.mem_cons_of_mem _ h)

end Cut

/-! ## names -/

/-- A name of an entry: it is not empty, holds no separator and does not stand for a directory. -/
def isFileName (name : String) : Bool :=
  name != "" && name != "." && name != ".." && !name.toList.contains '/'

theorem isFileName_iff {name : String} : isFileName name = true ↔
    name ≠ "" ∧ name ≠ "." ∧ name ≠ ".." ∧ '/' ∉ name.toList := by
  simp [isFileName, and_assoc]

def Disk.isNamed (d : Disk) : Bool := d.entries.all fun x => x.1.all isFileName

namespace Path

theorem ofSegment_of_ne {name : String} (hempty : name ≠ "") (hdot : name ≠ ".")
    (hup : name ≠ "..") : ofSegment name.toList = some (.name name) := by
  unfold ofSegment
  split
  case h_1 heq => exact absurd (String.toList_inj.mp heq) hempty
  case h_2 heq => exact absurd (String.toList_inj.mp heq) hdot
  case h_3 heq => exact absurd (String.toList_inj.mp heq) hup
  case h_4 => rw [String.ofList_toList]

theorem ofSegment_name {name : String} (h : isFileName name = true) :
    ofSegment name.toList = some (.name name) := by
  obtain ⟨hempty, hdot, hup, -⟩ := isFileName_iff.mp h
  exact ofSegment_of_ne hempty hdot hup

theorem components_ofPlace {names : List String} (h : ∀ name ∈ names, isFileName name = true) :
    (ofPlace names).components = .root :: names.map .name := by
  have htext : (ofPlace names).text.toList =
      '/' :: ['/'].intercalate (names.map String.toList) := by
    simp [ofPlace]
  have hinner : (Cut.fields '/' (['/'].intercalate (names.map String.toList))).filterMap ofSegment =
      names.map .name := by
    by_cases hnil : names = []
    · subst hnil
      rfl
    · have hslash : ∀ part ∈ names.map String.toList, '/' ∉ part := by
        intro part hpart
        obtain ⟨name, hname, rfl⟩ := List.mem_map.mp hpart
        exact (isFileName_iff.mp (h name hname)).2.2.2
      rw [Cut.fields_intercalate (by simpa using hnil) hslash, List.filterMap_map,
        ← List.filterMap_eq_map]
      exact List.filterMap_congr fun name hname => ofSegment_name (h name hname)
  unfold components
  rw [htext, Cut.fields, if_pos rfl]
  simp [Cut.fields_ne_nil, hinner]

theorem directory_ofPlace {names : List String} {name : String}
    (h : ∀ x ∈ names ++ [name], isFileName x = true) :
    Component.parentOf (ofPlace (names ++ [name])).components = (ofPlace names).components := by
  rw [components_ofPlace h, components_ofPlace fun x hx => h x (List.mem_append_left _ hx),
    List.map_append]
  have hlast : (Component.root :: (names.map .name ++ [name].map .name)).getLast? =
      some (.name name) := by
    rw [← List.cons_append]
    exact List.getLast?_concat
  rw [Component.parentOf, if_neg (by rw [hlast]; simp), ← List.cons_append]
  exact List.dropLast_concat

def isAbsolute (p : Path) : Bool := p.text.toList.head? == some '/'

theorem isAbsolute_iff {p : Path} : p.isAbsolute = true ↔ ∃ cs, p.text.toList = '/' :: cs := by
  rw [isAbsolute, beq_iff_eq]
  cases p.text.toList with
  | nil => simp
  | cons c cs => simp

theorem ne_empty_of_isAbsolute {p : Path} (h : p.isAbsolute = true) : p.text ≠ "" := by
  intro hempty
  obtain ⟨cs, hcs⟩ := isAbsolute_iff.mp h
  rw [hempty] at hcs
  cases hcs

theorem isAbsolute_join {p : Path} (h : p.isAbsolute = true) (name : String) :
    (p.join name).isAbsolute = true := by
  obtain ⟨cs, hcs⟩ := isAbsolute_iff.mp h
  refine isAbsolute_iff.mpr ?_
  unfold join
  split <;> simp [hcs]

theorem isAbsolute_ofPlace (names : List String) : (ofPlace names).isAbsolute = true :=
  isAbsolute_iff.mpr ⟨("/".intercalate names).toList, by simp [ofPlace]⟩

theorem exists_segments_of_isAbsolute {p : Path} (h : p.isAbsolute = true) :
    ∃ rest, p.segments = "" :: rest := by
  obtain ⟨cs, hcs⟩ := isAbsolute_iff.mp h
  refine ⟨(Cut.fields '/' cs).map String.ofList, ?_⟩
  rw [segments, hcs, Cut.fields, if_pos rfl]
  rfl

theorem withoutDot_of_ne {p : Path} (h : p.segments.head? ≠ some ".") : p.withoutDot = p := by
  unfold withoutDot
  split
  case h_1 rest heq =>
    rw [heq] at h
    exact absurd rfl h
  case h_2 => rfl

theorem withoutDot_of_isAbsolute {p : Path} (h : p.isAbsolute = true) : p.withoutDot = p := by
  obtain ⟨rest, hsegments⟩ := exists_segments_of_isAbsolute h
  refine withoutDot_of_ne ?_
  rw [hsegments]
  simp

theorem segments_ne_nil (p : Path) : p.segments ≠ [] := by
  rw [segments, Ne, List.map_eq_nil_iff]
  exact Cut.fields_ne_nil _ _

theorem exists_segments (p : Path) : ∃ first rest, p.segments = first :: rest :=
  List.exists_cons_of_ne_nil p.segments_ne_nil

theorem text_eq (p : Path) : p.text = "/".intercalate p.segments := by
  rw [← String.toList_inj, String.toList_intercalate, segments, List.map_map]
  have hparts : (Cut.fields '/' p.text.toList).map (String.toList ∘ String.ofList) =
      Cut.fields '/' p.text.toList := by
    simp [Function.comp_def]
  rw [hparts]
  exact (Cut.intercalate_fields _).symm

theorem segments_intercalate {names : List String} (hne : names ≠ [])
    (h : ∀ name ∈ names, '/' ∉ name.toList) : segments ⟨"/".intercalate names⟩ = names := by
  have hparts : ∀ part ∈ names.map String.toList, '/' ∉ part := by
    intro part hpart
    obtain ⟨name, hname, rfl⟩ := List.mem_map.mp hpart
    exact h name hname
  have hfields : Cut.fields '/' ("/".intercalate names).toList = names.map String.toList := by
    rw [String.toList_intercalate]
    exact Cut.fields_intercalate (by simpa using hne) hparts
  rw [segments, hfields, List.map_map]
  simp [Function.comp_def]

theorem not_mem_of_mem_segments {p : Path} {name : String} (h : name ∈ p.segments) :
    '/' ∉ name.toList := by
  obtain ⟨field, hfield, rfl⟩ := List.mem_map.mp h
  rw [String.toList_ofList]
  exact Cut.not_mem_of_mem_fields hfield

theorem segments_eq_singleton {p : Path} {name : String} (h : p.segments = [name]) :
    p.text = name := by
  rw [text_eq, h]
  simp

theorem segments_ofPlace {names : List String} (hne : names ≠ [])
    (h : ∀ name ∈ names, isFileName name = true) : (ofPlace names).segments = "" :: names := by
  have hslash : ∀ name ∈ names, '/' ∉ name.toList :=
    fun name hname => (isFileName_iff.mp (h name hname)).2.2.2
  have htext : (ofPlace names).text.toList = '/' :: ("/".intercalate names).toList := by
    simp [ofPlace]
  have hrest := segments_intercalate hne hslash
  rw [segments] at hrest
  rw [segments, htext, Cut.fields, if_pos rfl, List.map_cons, hrest]

/-- The segments of a path with one more name, up to an empty one at its end. -/
theorem segments_join {p : Path} {name : String} (hp : p.text ≠ "") (hname : '/' ∉ name.toList) :
    (∃ above, p.segments = above ++ [""] ∧ (p.join name).segments = above ++ [name]) ∨
      (p.join name).segments = p.segments ++ [name] := by
  have hfields := Cut.fields_of_not_mem hname
  have hempty : p.text.isEmpty = false := by simpa using hp
  unfold join
  rw [hempty, Bool.false_or]
  by_cases hlast : p.text.toList.getLast? = some '/'
  · left
    rw [if_pos (by simpa using hlast)]
    obtain ⟨cs, hcs⟩ := List.getLast?_eq_some_iff.mp hlast
    refine ⟨(Cut.fields '/' cs).map String.ofList, ?_, ?_⟩
    · rw [segments, hcs, Cut.fields_append, List.map_append]
      rfl
    · simp only [segments, String.toList_append]
      rw [hcs, List.append_assoc, List.singleton_append, Cut.fields_append, hfields,
        List.map_append, List.map_singleton, String.ofList_toList]
  · right
    rw [if_neg (by simpa using hlast)]
    simp only [segments, String.toList_append]
    rw [show "/".toList = ['/'] from rfl, List.append_assoc, List.singleton_append,
      Cut.fields_append, hfields, List.map_append, List.map_singleton, String.ofList_toList]

end Path

/-! ## places -/

namespace Disk

variable {d : Disk} {p : Path} {place base : Place} {name : String}

theorem named_of_entry (hd : d.isNamed = true) (h : (d.entry? place).isSome = true) :
    ∀ name ∈ place, isFileName name = true := by
  by_cases hne : place = []
  · subst hne
    exact nofun
  · obtain ⟨e, he⟩ := Option.isSome_iff_exists.mp h
    exact List.all_eq_true.mp (List.all_eq_true.mp hd _ (mem_entries_of_eq_some hne he))

theorem named_step {here next : Place} {segment : String} (hd : d.isNamed = true)
    (h : d.step here segment = .ok next) (hhere : ∀ name ∈ here, isFileName name = true) :
    ∀ name ∈ next, isFileName name = true := by
  obtain ⟨-, ⟨-, rfl⟩ | ⟨-, rfl⟩ | ⟨-, -, hsome⟩⟩ := step_eq_ok.mp h
  · exact hhere
  · exact fun name hname => hhere name (List.dropLast_subset _ hname)
  · exact named_of_entry hd hsome

theorem locate_absolute (d : Disk) (hp : p.isAbsolute = true) :
    d.locate p = p.segments.foldlM d.step [] := by
  have hstart : d.startOf p = [] := if_pos hp
  rw [locate, if_neg (by simpa using Path.ne_empty_of_isAbsolute hp), follow, hstart]

theorem named_locate (hd : d.isNamed = true) (hp : p.isAbsolute = true)
    (h : d.locate p = .ok place) : ∀ name ∈ place, isFileName name = true := by
  rw [locate_absolute d hp] at h
  have hhere : ∀ name ∈ ([] : Place), isFileName name = true := nofun
  generalize ([] : Place) = here at h hhere
  generalize p.segments = segments at h
  induction segments generalizing here with
  | nil =>
    cases h
    exact hhere
  | cons segment segments ih =>
    rw [List.foldlM_cons, bind_eq_ok] at h
    obtain ⟨next, hstep, h⟩ := h
    exact ih next (named_step hd hstep hhere) h

theorem foldlM_concat_eq {above : List String} {segment : String} {start here : Place}
    (h : above.foldlM d.step start = .ok here) :
    (above ++ [segment]).foldlM d.step start = d.step here segment := by
  rw [List.foldlM_append, h]
  simp only [List.foldlM_cons, List.foldlM_nil, bind_pure]
  rfl

theorem foldlM_concat {above : List String} {segment : String} {start : Place}
    (h : (above ++ [segment]).foldlM d.step start = .ok place) :
    ∃ here, above.foldlM d.step start = .ok here ∧ d.step here segment = .ok place := by
  rw [List.foldlM_append, bind_eq_ok] at h
  obtain ⟨here, habove, h⟩ := h
  rw [List.foldlM_cons, bind_eq_ok] at h
  obtain ⟨next, hstep, h⟩ := h
  cases h
  exact ⟨here, habove, hstep⟩

theorem locate_join_eq_step (hp : p.isAbsolute = true) (hname : isFileName name = true)
    (hbase : d.locate p = .ok base) : d.locate (p.join name) = d.step base name := by
  obtain ⟨hempty, hdot, hup, hslash⟩ := isFileName_iff.mp hname
  rw [locate_absolute d hp] at hbase
  rw [locate_absolute d (Path.isAbsolute_join hp name)]
  rcases Path.segments_join (Path.ne_empty_of_isAbsolute hp) hslash with
    ⟨above, hsegments, hsegments'⟩ | hsegments'
  · -- the empty segment behind the last separator leads nowhere else
    rw [hsegments] at hbase
    obtain ⟨here, habove, hstep⟩ := foldlM_concat hbase
    have hstay : d.step here "" = .ok here := by
      simp [step, isDirectoryAt_of_step hstep]
    cases hstay.symm.trans hstep
    rw [hsegments', foldlM_concat_eq habove]
  · rw [hsegments', foldlM_concat_eq hbase]

theorem locate_join (hp : p.isAbsolute = true) (hname : isFileName name = true)
    (hbase : d.locate p = .ok base) (hplace : d.locate (p.join name) = .ok place) :
    place = base ++ [name] := by
  obtain ⟨hempty, hdot, hup, -⟩ := isFileName_iff.mp hname
  rw [locate_join_eq_step hp hname hbase] at hplace
  rw [step_name (isDirectoryAt_of_step hplace) hempty hdot hup] at hplace
  split at hplace
  · injection hplace with hplace
    exact hplace.symm
  · cases hplace

theorem locate_join_of_entry (hp : p.isAbsolute = true) (hname : isFileName name = true)
    (hbase : d.locate p = .ok base) (hdir : d.isDirectoryAt base = true)
    (hentry : (d.entry? (base ++ [name])).isSome = true) :
    d.locate (p.join name) = .ok (base ++ [name]) := by
  obtain ⟨hempty, hdot, hup, -⟩ := isFileName_iff.mp hname
  rw [locate_join_eq_step hp hname hbase, step_name hdir hempty hdot hup, if_pos hentry]

/-- Every name of the place stands in a directory. -/
def Way (d : Disk) (place : Place) : Prop :=
  ∀ above name, above ++ [name] <+: place →
    d.isDirectoryAt above = true ∧ (d.entry? (above ++ [name])).isSome = true

theorem way_step {here next : Place} {segment : String} (h : d.step here segment = .ok next)
    (hhere : d.Way here) : d.Way next := by
  obtain ⟨hdir, ⟨-, rfl⟩ | ⟨-, rfl⟩ | ⟨-, rfl, hsome⟩⟩ := step_eq_ok.mp h
  · exact hhere
  · exact fun above name habove => hhere above name (habove.trans (List.dropLast_prefix here))
  · intro above name habove
    rcases List.prefix_concat_iff.mp habove with heq | habove
    · obtain ⟨rfl, hname⟩ := List.append_inj' heq rfl
      cases hname
      exact ⟨hdir, hsome⟩
    · exact hhere above name habove

theorem way_locate (hp : p.isAbsolute = true) (h : d.locate p = .ok place) : d.Way place := by
  rw [locate_absolute d hp] at h
  have hhere : d.Way [] := by
    intro above name habove
    exact absurd (List.prefix_nil.mp habove) (by simp)
  generalize ([] : Place) = here at h hhere
  generalize p.segments = segments at h
  induction segments generalizing here with
  | nil =>
    cases h
    exact hhere
  | cons segment segments ih =>
    rw [List.foldlM_cons, bind_eq_ok] at h
    obtain ⟨next, hstep, h⟩ := h
    exact ih next (way_step hstep hhere) h

/-- The path of a place leads there, if any path from the root does. -/
theorem locate_ofPlace (hd : d.isNamed = true) (hp : p.isAbsolute = true)
    (h : d.locate p = .ok place) : d.locate (Path.ofPlace place) = .ok place := by
  have hway := way_locate hp h
  have hnamed := named_locate hd hp h
  have hfollow : ∀ names : Place, names <+: place → names.foldlM d.step [] = .ok names := by
    intro names
    induction names using List.reverseRecOn with
    | nil => exact fun _ => rfl
    | append_singleton above name ih =>
      intro hnames
      obtain ⟨hdir, hentry⟩ := hway above name hnames
      obtain ⟨hempty, hdot, hup, -⟩ := isFileName_iff.mp (hnamed name (hnames.subset (by simp)))
      have habove := ih ((List.prefix_append above [name]).trans hnames)
      rw [foldlM_concat_eq habove, step_name hdir hempty hdot hup, if_pos hentry]
  have hroot : d.step [] "" = .ok [] := by simp [step, isDirectoryAt, entry?, Entry.isDirectory]
  rw [locate_absolute d (Path.isAbsolute_ofPlace place)]
  by_cases hnil : place = []
  · subst hnil
    rw [show (Path.ofPlace []).segments = ["", ""] from rfl]
    simp only [List.foldlM_cons, List.foldlM_nil, hroot]
    rfl
  · rw [Path.segments_ofPlace hnil hnamed, List.foldlM_cons, hroot]
    exact hfollow place List.prefix_rfl

end Disk

end ParamThreading
