import ParamThreading.Disk.Replacement
import ParamThreading.Proofs.LoadedProgram

/-!
# Places on a disk

What a place holds is known after any file is put or removed, and where a path leads to is a matter
of the directories alone: files that come and go do not lead anywhere else.

* `Disk.entry?_put`, `Disk.entry?_remove`  what places hold after a change;
* `Disk.SameDirectories`  disks that differ in files only;
* `Disk.target?`  the place at which a replacement of a path ends up, if it can be replaced;
* `Disk.locate_of_target?`, `Disk.eq_of_locate`  that place is the one the path leads to.
-/

namespace ParamThreading

namespace Disk

variable {d s : Disk} {place : Place} {p : Path}

/-! ## entries -/

theorem entry?_nil (d : Disk) : d.entry? [] = some .directory := rfl

theorem entry?_of_ne (d : Disk) (hne : place ≠ []) : d.entry? place = d.entries.lookup place := by
  unfold entry?
  rw [if_neg (by simpa using hne)]

theorem mem_entries_of_eq_some {e : Entry} (hne : place ≠ []) (h : d.entry? place = some e) :
    (place, e) ∈ d.entries := by
  rw [entry?_of_ne d hne] at h
  obtain ⟨before, after, hentries, -⟩ := List.lookup_eq_some_iff.mp h
  rw [hentries]
  exact List.mem_append_right _ List.mem_cons_self

theorem ne_nil_of_none (h : d.entry? place = none) : place ≠ [] := by
  rintro rfl
  cases h

theorem lookup_cons_ite {β : Type} (here q : Place) (b : β) (rest : List (Place × β)) :
    ((here, b) :: rest).lookup q = if q = here then some b else rest.lookup q := by
  rw [List.lookup_cons]
  by_cases hq : q = here
  · simp [hq]
  · simp [hq, beq_false_of_ne hq]

theorem lookup_replaced (entries : List (Place × Entry)) (place q : Place) (e : Entry) :
    (entries.map fun x => if x.1 = place then (x.1, e) else (x.1, x.2)).lookup q =
      if q = place then (entries.lookup q).map fun _ => e else entries.lookup q := by
  induction entries with
  | nil => simp
  | cons x entries ih =>
    obtain ⟨here, held⟩ := x
    rw [List.map_cons, lookup_cons_ite]
    by_cases hhere : here = place
    · subst hhere
      rw [if_pos rfl, lookup_cons_ite, ih]
      by_cases hq : q = here <;> simp [hq]
    · rw [if_neg hhere, lookup_cons_ite, ih]
      by_cases hq : q = here
      · simp [hq, hhere]
      · simp [hq]

theorem entry?_put (d : Disk) (content : ByteArray) (hne : place ≠ []) (q : Place) :
    entry? (d.put place content) q = if q = place then some (.file content) else d.entry? q := by
  by_cases hq : q = []
  · subst hq
    rw [if_neg hne.symm, entry?_nil, entry?_nil]
  rw [entry?_of_ne _ hq, entry?_of_ne _ hq, put]
  by_cases hplace : (d.entries.lookup place).isSome = true
  · rw [if_pos hplace]
    refine (lookup_replaced d.entries place q (.file content)).trans ?_
    by_cases hq : q = place
    · subst hq
      rw [if_pos rfl, if_pos rfl, ← Option.some_get hplace, Option.map_some]
    · rw [if_neg hq, if_neg hq]
  · rw [if_neg hplace, List.lookup_append, lookup_cons_ite, List.lookup_nil]
    rw [Bool.not_eq_true, Option.isSome_eq_false_iff, Option.isNone_iff_eq_none] at hplace
    by_cases hq : q = place
    · simp [hq, hplace]
    · simp [hq]

theorem entry?_remove (d : Disk) (hne : place ≠ []) (q : Place) :
    entry? (d.remove place) q = if q = place then none else d.entry? q := by
  by_cases hq : q = []
  · subst hq
    rw [if_neg hne.symm, entry?_nil, entry?_nil]
  rw [entry?_of_ne _ hq, entry?_of_ne _ hq, remove]
  induction d.entries with
  | nil => simp
  | cons x entries ih =>
    obtain ⟨here, held⟩ := x
    simp only [List.filter_cons, bne_iff_ne, ne_eq, ite_not, lookup_cons_ite] at ih ⊢
    by_cases hhere : here = place
    · rw [if_pos hhere, ih]
      by_cases hq : q = place <;> simp [hq, hhere]
    · rw [if_neg hhere, lookup_cons_ite, ih]
      by_cases hq : q = place
      · simp [hq, Ne.symm hhere]
      · simp [hq]

theorem cwd_put (d : Disk) (place : Place) (content : ByteArray) :
    (d.put place content).cwd = d.cwd := by
  unfold put
  split <;> rfl

theorem isDirectoryAt_of_file {content : ByteArray} (h : d.entry? place = some (.file content)) :
    d.isDirectoryAt place = false := by
  rw [isDirectoryAt, h]
  rfl

theorem isFileAt_of_isDirectoryAt (h : d.isDirectoryAt place = true) :
    d.isFileAt place = false := by
  rw [isDirectoryAt, Option.any_eq_true] at h
  obtain ⟨e, he, hdirectory⟩ := h
  rw [isFileAt, he]
  simpa using hdirectory

/-! ## paths on disks with the same directories -/

structure SameDirectories (d s : Disk) : Prop where
  cwd : s.cwd = d.cwd
  directory : ∀ place, s.isDirectoryAt place = d.isDirectoryAt place

theorem SameDirectories.symm (h : SameDirectories d s) : SameDirectories s d :=
  ⟨h.cwd.symm, fun place => (h.directory place).symm⟩

theorem sameDirectories_put (content : ByteArray) (hne : place ≠ [])
    (hfile : d.isDirectoryAt place = false) : SameDirectories d (d.put place content) := by
  refine ⟨cwd_put d place content, fun q => ?_⟩
  by_cases hq : q = place
  · subst hq
    rw [hfile, isDirectoryAt_of_file (by rw [entry?_put d content hne, if_pos rfl])]
  · rw [isDirectoryAt, entry?_put d content hne, if_neg hq, isDirectoryAt]

theorem step_name {here : Place} {name : String} (hhere : d.isDirectoryAt here = true)
    (hempty : name ≠ "") (hdot : name ≠ ".") (hup : name ≠ "..") :
    d.step here name = if (d.entry? (here ++ [name])).isSome then .ok (here ++ [name])
      else .error .notFound := by
  simp [step, hhere, hempty, hdot, hup]

/-- What one step of a path can do: stay, go up, or go down to a name that is there. -/
theorem step_eq_ok {here next : Place} {segment : String} :
    d.step here segment = .ok next ↔ d.isDirectoryAt here = true ∧
      ((segment = "" ∨ segment = ".") ∧ here = next ∨
        segment = ".." ∧ here.dropLast = next ∨
        (segment ≠ "" ∧ segment ≠ "." ∧ segment ≠ "..") ∧ here ++ [segment] = next ∧
          (d.entry? next).isSome = true) := by
  by_cases hhere : d.isDirectoryAt here = true
  · by_cases hstay : segment = "" ∨ segment = "."
    · rcases hstay with rfl | rfl <;> simp [step, hhere]
    rw [not_or] at hstay
    by_cases hup : segment = ".."
    · simp [step, hhere, hup]
    rw [step_name hhere hstay.1 hstay.2 hup]
    constructor
    · intro h
      split_ifs at h with hsome
      cases h
      exact ⟨hhere, .inr (.inr ⟨⟨hstay.1, hstay.2, hup⟩, rfl, hsome⟩)⟩
    · rintro ⟨-, ⟨h, -⟩ | ⟨h, -⟩ | ⟨-, rfl, hsome⟩⟩
      · exact absurd h (not_or.mpr hstay)
      · exact absurd h hup
      · exact if_pos hsome
  · simp [step, hhere]

theorem isDirectoryAt_of_step {here next : Place} {segment : String}
    (h : d.step here segment = .ok next) : d.isDirectoryAt here = true := (step_eq_ok.mp h).1

theorem SameDirectories.step_eq {here next : Place} {segment : String} (h : SameDirectories d s)
    (hstep : d.step here segment = .ok next) (hnext : d.isDirectoryAt next = true) :
    s.step here segment = .ok next := by
  rw [step_eq_ok] at hstep ⊢
  obtain ⟨hhere, hstay | hup | ⟨hsegment, hdown, -⟩⟩ := hstep
  · exact ⟨(h.directory here).trans hhere, .inl hstay⟩
  · exact ⟨(h.directory here).trans hhere, .inr (.inl hup)⟩
  · rw [← h.directory next, isDirectoryAt, Option.any_eq_true] at hnext
    obtain ⟨e, he, -⟩ := hnext
    exact ⟨(h.directory here).trans hhere, .inr (.inr ⟨hsegment, hdown, by rw [he]; rfl⟩)⟩

theorem isDirectoryAt_of_foldlM {segments : List String} {start here : Place}
    (h : segments.foldlM d.step start = .ok here) (hhere : d.isDirectoryAt here = true) :
    d.isDirectoryAt start = true := by
  cases segments with
  | nil =>
    cases h
    exact hhere
  | cons segment segments =>
    rw [List.foldlM_cons, bind_eq_ok] at h
    obtain ⟨next, hstep, -⟩ := h
    exact isDirectoryAt_of_step hstep

theorem SameDirectories.foldlM_eq {segments : List String} {start here : Place}
    (h : SameDirectories d s) (hfollow : segments.foldlM d.step start = .ok here)
    (hhere : d.isDirectoryAt here = true) : segments.foldlM s.step start = .ok here := by
  induction segments generalizing start with
  | nil => exact hfollow
  | cons segment segments ih =>
    rw [List.foldlM_cons, bind_eq_ok] at hfollow ⊢
    obtain ⟨next, hstep, hrest⟩ := hfollow
    exact ⟨next, h.step_eq hstep (isDirectoryAt_of_foldlM hrest hhere), ih hrest⟩

theorem SameDirectories.startOf_eq (h : SameDirectories d s) (p : Path) :
    s.startOf p = d.startOf p := by
  rw [startOf, startOf, h.cwd]

theorem isDirectory_eq_true : d.isDirectory p = true ↔
    ∃ here, d.locate p = .ok here ∧ d.isDirectoryAt here = true := by
  unfold isDirectory
  cases d.locate p with
  | error e => simp
  | ok here => simp

theorem SameDirectories.isDirectory_imp (h : SameDirectories d s) (hp : d.isDirectory p = true) :
    s.isDirectory p = true := by
  rw [isDirectory_eq_true] at hp ⊢
  obtain ⟨here, hlocate, hhere⟩ := hp
  refine ⟨here, ?_, (h.directory here).trans hhere⟩
  by_cases hempty : p.text.isEmpty = true
  · rw [locate, if_pos hempty] at hlocate
    cases hlocate
  · rw [locate, if_neg hempty] at hlocate ⊢
    rw [follow, h.startOf_eq]
    exact h.foldlM_eq hlocate hhere

theorem SameDirectories.isDirectory_eq (h : SameDirectories d s) (p : Path) :
    s.isDirectory p = d.isDirectory p :=
  Bool.eq_iff_iff.mpr ⟨h.symm.isDirectory_imp, h.isDirectory_imp⟩

/-! ## targets -/

/-- The place at which a replacement of a path ends up, if it can be replaced. -/
def target? (d : Disk) (p : Path) : Option Place := (d.target p).toOption

/-- A path can be replaced if it ends in a name, in a directory, and no directory is called so. -/
theorem target?_eq_some : d.target? p = some place ↔ p.text.isEmpty = false ∧
    ∃ above last here, p.segments = above ++ [last] ∧ d.follow p above = .ok here ∧
      d.isDirectoryAt here = true ∧ last ≠ "" ∧ last ≠ "." ∧ last ≠ ".." ∧
      d.isDirectoryAt place = false ∧ place = here ++ [last] := by
  unfold target? target
  constructor
  · intro h
    cases hreverse : p.segments.reverse with
    | nil =>
      rw [hreverse] at h
      cases h
    | cons last above =>
      have hsegments : p.segments = above.reverse ++ [last] := by
        rw [← List.reverse_cons, ← hreverse, List.reverse_reverse]
      cases hfollow : d.follow p above.reverse with
      | error e =>
        simp only [hreverse, hfollow] at h
        cases h
      | ok here =>
        simp only [hreverse, hfollow] at h
        split_ifs at h with htext hhere hempty hdots hfile <;> cases h
        refine ⟨by simpa using htext, above.reverse, last, here, hsegments, hfollow,
          by simpa using hhere, ?_⟩
        simp only [Bool.or_eq_true, beq_iff_eq, not_or] at hempty hdots hfile
        exact ⟨hempty, hdots.1, hdots.2, by simpa using hfile, rfl⟩
  · rintro ⟨htext, above, last, here, hsegments, hfollow, hhere, hempty, hdot, hup, hfile, rfl⟩
    rw [hsegments, List.reverse_append]
    simp [hfollow, htext, hhere, hempty, hdot, hup, hfile, Except.toOption]

theorem SameDirectories.target?_imp (h : SameDirectories d s) (hp : d.target? p = some place) :
    s.target? p = some place := by
  rw [target?_eq_some] at hp ⊢
  obtain ⟨htext, above, last, here, hsegments, hfollow, hhere, hempty, hdot, hup, hfile, hplace⟩ :=
    hp
  refine ⟨htext, above, last, here, hsegments, ?_, (h.directory here).trans hhere,
    hempty, hdot, hup, (h.directory place).trans hfile, hplace⟩
  rw [follow, h.startOf_eq]
  exact h.foldlM_eq hfollow hhere

theorem SameDirectories.target?_eq (h : SameDirectories d s) (p : Path) :
    s.target? p = d.target? p :=
  Option.ext fun _ => ⟨h.symm.target?_imp, h.target?_imp⟩

theorem target?_ne_nil (h : d.target? p = some place) : place ≠ [] := by
  obtain ⟨-, above, last, here, -, -, -, -, -, -, -, rfl⟩ := target?_eq_some.mp h
  simp

theorem target?_not_directory (h : d.target? p = some place) : d.isDirectoryAt place = false := by
  obtain ⟨-, above, last, here, -, -, -, -, -, -, hfile, -⟩ := target?_eq_some.mp h
  exact hfile

theorem mem_segments_of_target? {here : Place} {name : String}
    (h : d.target? p = some (here ++ [name])) : name ∈ p.segments := by
  obtain ⟨-, above, last, here', hsegments, -, -, -, -, -, -, hplace⟩ := target?_eq_some.mp h
  obtain ⟨-, hlast⟩ := List.append_inj' hplace rfl
  cases hlast
  rw [hsegments]
  exact List.mem_append_right _ (List.mem_singleton_self _)

theorem locate_eq_of_target? (h : d.target? p = some place) :
    d.locate p = if (d.entry? place).isSome then .ok place else .error .notFound := by
  obtain ⟨htext, above, last, here, hsegments, hfollow, hhere, hempty, hdot, hup, -, rfl⟩ :=
    target?_eq_some.mp h
  unfold follow at hfollow
  rw [locate, if_neg (by simp [htext]), follow, hsegments, List.foldlM_append, hfollow]
  simp only [List.foldlM_cons, List.foldlM_nil, bind_pure]
  exact step_name hhere hempty hdot hup

theorem eq_of_locate {q : Place} (h : d.target? p = some place) (hlocate : d.locate p = .ok q) :
    q = place := by
  rw [locate_eq_of_target? h] at hlocate
  split at hlocate
  · injection hlocate with hlocate
    exact hlocate.symm
  · cases hlocate

theorem read_of_target? {content : ByteArray} (h : d.target? p = some place)
    (hentry : d.entry? place = some (.file content)) : d.read p = .ok content := by
  have hlocate : d.locate p = .ok place := by
    rw [locate_eq_of_target? h, hentry, Option.isSome_some, if_pos rfl]
  rw [read, hlocate]
  simp only [hentry]

end Disk

end ParamThreading
