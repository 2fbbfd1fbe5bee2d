import Mathlib.Data.List.TakeWhile
import ParamThreading.Proofs.DiskPlaces

/-!
# Replacing several files

Whatever fails, no temporary file is left behind and each place holds either what it held or the new
content; but a target that cannot be replaced is noticed only when those before it are replaced
already, and they stay so.

* `Disk.written`  the files that are replaced: all, those before the first that fails, or none if
  one cannot be staged;
* `Disk.overwritten`  what places hold when some files are replaced, the last one if there are
  several;
* `Disk.Holds`  a disk with temporary files on it;
* `Disk.stageEach_cases`, `Disk.replaceEach_eq`  the two loops;
* `Disk.replaceAll_exact`  the disk that is left, and when and how a replacement fails.
-/

namespace ParamThreading

namespace Disk

variable {d s : Disk} {paths : List Path} {files : List (Path × ByteArray)} {place : Place}

/-! ## what a replacement comes to -/

def canStage (d : Disk) (files : List (Path × ByteArray)) : Bool :=
  files.all fun x => d.isDirectory (stagingOf x.1)

/-- The files before the first one that cannot be replaced. -/
def replaceable (d : Disk) (files : List (Path × ByteArray)) : List (Path × ByteArray) :=
  files.takeWhile fun x => (d.target? x.1).isSome

def written (d : Disk) (files : List (Path × ByteArray)) : List (Path × ByteArray) :=
  if d.canStage files then d.replaceable files else []

/-- What a place holds when files are replaced: the last content that is given for it. -/
def overwritten (d : Disk) (files : List (Path × ByteArray)) (place : Place) : Option Entry :=
  match files.reverse.find? fun x => d.target? x.1 = some place with
  | some x => some (.file x.2)
  | none => d.entry? place

theorem overwritten_of_not_mem (h : ∀ x ∈ files, d.target? x.1 ≠ some place) :
    d.overwritten files place = d.entry? place := by
  have hnone : (files.reverse.find? fun x => d.target? x.1 = some place) = none := by
    rw [List.find?_eq_none]
    intro x hx
    simpa using h x (List.mem_reverse.mp hx)
  rw [overwritten, hnone]

theorem overwritten_of_unique {x : Path × ByteArray} (hx : x ∈ files)
    (hplace : d.target? x.1 = some place)
    (hunique : ∀ y ∈ files, d.target? y.1 = some place → y = x) :
    d.overwritten files place = some (.file x.2) := by
  unfold overwritten
  cases hfound : files.reverse.find? fun x => d.target? x.1 = some place with
  | none =>
    rw [List.find?_eq_none] at hfound
    exact absurd hplace (by simpa using hfound x (List.mem_reverse.mpr hx))
  | some y =>
    have htarget : d.target? y.1 = some place := by simpa using List.find?_some hfound
    rw [hunique y (List.mem_reverse.mp (List.mem_of_find?_eq_some hfound)) htarget]

theorem overwritten_cons {p : Path} {content : ByteArray} {here : Place}
    (hp : d.target? p = some here) (files : List (Path × ByteArray)) (place : Place) :
    d.overwritten ((p, content) :: files) place = (d.put here content).overwritten files place := by
  have hsame := sameDirectories_put content (target?_ne_nil hp) (target?_not_directory hp)
  unfold overwritten
  simp only [hsame.target?_eq]
  rw [List.reverse_cons, List.find?_append]
  cases hfound : files.reverse.find? fun x => d.target? x.1 = some place with
  | some x => rfl
  | none =>
    rw [entry?_put d content (target?_ne_nil hp)]
    by_cases hplace : place = here
    · subst hplace
      simp [hp]
    · simp [hp, hplace, Ne.symm hplace]

theorem sameDirectories_overwritten (hcwd : s.cwd = d.cwd)
    (h : ∀ place, s.entry? place = d.overwritten files place) : SameDirectories d s := by
  refine ⟨hcwd, fun place => ?_⟩
  rw [isDirectoryAt, h, overwritten]
  cases hfound : files.reverse.find? fun x => d.target? x.1 = some place with
  | some x =>
    have hplace : d.target? x.1 = some place := by simpa using List.find?_some hfound
    exact (target?_not_directory hplace).symm
  | none => rfl

/-- The last content given for a path is the one that is read there. -/
theorem read_overwritten {before after : List (Path × ByteArray)} {p : Path} {content : ByteArray}
    (hcwd : s.cwd = d.cwd) (h : ∀ place, s.entry? place = d.overwritten files place)
    (hfiles : files = before ++ (p, content) :: after) (hp : (d.target? p).isSome = true)
    (hlast : ∀ x ∈ after, d.target? x.1 ≠ d.target? p) : s.read p = .ok content := by
  obtain ⟨place, hplace⟩ := Option.isSome_iff_exists.mp hp
  have hsame := sameDirectories_overwritten hcwd h
  refine read_of_target? ((hsame.target?_eq p).trans hplace) ?_
  have hafter : (after.reverse.find? fun x => d.target? x.1 = some place) = none := by
    rw [List.find?_eq_none]
    intro x hx
    simpa [← hplace] using hlast x (List.mem_reverse.mp hx)
  rw [h, overwritten, hfiles, List.reverse_append, List.reverse_cons, List.append_assoc,
    List.find?_append, hafter]
  simp [hplace]

/-! ## temporary files -/

theorem temporaryName_ne {name : String}
    (h : name ∈ d.entries.flatMap (·.1) ++ paths.flatMap Path.segments) :
    name ≠ d.temporaryName paths := by
  intro heq
  have hle := le_foldr_max (List.mem_map_of_mem (f := String.length) h)
  have hlength := congrArg String.length heq
  simp only [temporaryName, String.length_append, String.length_ofList, List.length_replicate]
    at hlength
  have htmp : ".tmp".length = 4 := rfl
  omega

theorem entry?_temporary (d : Disk) (paths : List Path) (here : Place) :
    d.entry? (here ++ [d.temporaryName paths]) = none := by
  rw [entry?_of_ne d (by simp), List.lookup_eq_none_iff]
  intro x hx
  rw [bne_iff_ne]
  intro heq
  have hmem : d.temporaryName paths ∈ x.1 := by
    rw [← heq]
    exact List.mem_append_right _ (List.mem_singleton_self _)
  exact temporaryName_ne (List.mem_append_left _ (List.mem_flatMap.mpr ⟨x, hx, hmem⟩)) rfl

theorem target?_ne_temporary {p : Path} (hp : p ∈ paths) (here : Place) :
    d.target? p ≠ some (here ++ [d.temporaryName paths]) := fun h =>
  temporaryName_ne
    (List.mem_append_right _ (List.mem_flatMap.mpr ⟨p, hp, mem_segments_of_target? h⟩)) rfl

theorem lookup_eq_none {β : Type} {staged : List (Place × β)} (h : ∀ x ∈ staged, x.1 ≠ place) :
    staged.lookup place = none := by
  rw [List.lookup_eq_none_iff]
  intro x hx
  rw [bne_iff_ne]
  exact (h x hx).symm

/-- The second disk is the first one with temporary files, none of which is at a place that was
taken or that a path is to be replaced at. -/
structure Holds (paths : List Path) (d : Disk) (staged : List (Place × ByteArray)) (s : Disk) :
    Prop where
  cwd : s.cwd = d.cwd
  nodup : (staged.map (·.1)).Nodup
  fresh : ∀ x ∈ staged, d.entry? x.1 = none
  apart : ∀ x ∈ staged, ∀ p ∈ paths, d.target? p ≠ some x.1
  entry : ∀ place, s.entry? place = ((staged.lookup place).map Entry.file).or (d.entry? place)

namespace Holds

variable {staged : List (Place × ByteArray)} {temporary : Place} {content : ByteArray}

theorem none (paths : List Path) (d : Disk) : Holds paths d [] d :=
  ⟨rfl, .nil, nofun, nofun, fun place => by simp⟩

theorem sameDirectories (h : Holds paths d staged s) : SameDirectories d s := by
  refine ⟨h.cwd, fun place => ?_⟩
  rw [isDirectoryAt, h.entry, isDirectoryAt]
  cases hfound : staged.lookup place with
  | none => rfl
  | some content =>
    obtain ⟨before, after, rfl, -⟩ := List.lookup_eq_some_iff.mp hfound
    rw [h.fresh (place, content) (by simp)]
    rfl

theorem lookup_temporary (h : Holds paths d ((temporary, content) :: staged) s) :
    staged.lookup temporary = .none :=
  lookup_eq_none fun x hx heq =>
    (List.nodup_cons.mp h.nodup).1 (List.mem_map.mpr ⟨x, hx, heq⟩)

theorem cons (hfresh : d.entry? temporary = .none)
    (hapart : ∀ p ∈ paths, d.target? p ≠ some temporary)
    (h : Holds paths (d.put temporary content) staged s) :
    Holds paths d ((temporary, content) :: staged) s := by
  have hne := ne_nil_of_none hfresh
  have hsame : SameDirectories d (d.put temporary content) :=
    sameDirectories_put content hne (by rw [isDirectoryAt, hfresh]; rfl)
  -- the other temporary files are at other places
  have hother : ∀ x ∈ staged, x.1 ≠ temporary ∧ d.entry? x.1 = .none := by
    intro x hx
    have hnone := h.fresh x hx
    rw [entry?_put d content hne] at hnone
    split at hnone
    case isTrue => cases hnone
    case isFalse hx => exact ⟨hx, hnone⟩
  refine ⟨h.cwd.trans hsame.cwd, ?_, ?_, ?_, fun place => ?_⟩
  · rw [List.map_cons, List.nodup_cons, List.mem_map]
    refine ⟨?_, h.nodup⟩
    rintro ⟨x, hx, heq⟩
    exact (hother x hx).1 heq
  · rw [List.forall_mem_cons]
    exact ⟨hfresh, fun x hx => (hother x hx).2⟩
  · rw [List.forall_mem_cons]
    refine ⟨hapart, fun x hx p hp => ?_⟩
    rw [← hsame.target?_eq p]
    exact h.apart x hx p hp
  · rw [h.entry, entry?_put d content hne, lookup_cons_ite]
    by_cases hplace : place = temporary
    · subst hplace
      simp [lookup_eq_none fun x hx => (hother x hx).1]
    · simp [hplace]

theorem renamed {p : Path} {here : Place} (h : Holds paths d ((temporary, content) :: staged) s)
    (hp : p ∈ paths) (hhere : d.target? p = some here) :
    Holds paths (d.put here content) staged ((s.remove temporary).put here content) := by
  have hne := target?_ne_nil hhere
  have hsame := sameDirectories_put content hne (target?_not_directory hhere)
  obtain ⟨hfresh, hrest⟩ := List.forall_mem_cons.mp h.fresh
  have hnot : ∀ x ∈ (temporary, content) :: staged, x.1 ≠ here := fun x hx heq =>
    h.apart x hx p hp (by rw [hhere, heq])
  refine ⟨?_, (List.nodup_cons.mp h.nodup).2, fun x hx => ?_, fun x hx q hq => ?_, fun place => ?_⟩
  · rw [cwd_put, cwd_put]
    exact h.cwd
  · rw [entry?_put d content hne, if_neg (hnot x (List.mem_cons_of_mem _ hx))]
    exact hrest x hx
  · rw [hsame.target?_eq q]
    exact h.apart x (List.mem_cons_of_mem _ hx) q hq
  · rw [entry?_put _ content hne, entry?_remove s (ne_nil_of_none hfresh), h.entry,
      entry?_put d content hne, lookup_cons_ite]
    by_cases hplace : place = here
    · subst hplace
      simp [lookup_eq_none fun x hx => hnot x (List.mem_cons_of_mem _ hx)]
    · by_cases htemporary : place = temporary
      · subst htemporary
        simp [hplace, h.lookup_temporary, hfresh]
      · simp [hplace, htemporary]

theorem removed (h : Holds paths d staged s) :
    ((staged.map (·.1)).foldl remove s).cwd = d.cwd ∧
      ∀ place, entry? ((staged.map (·.1)).foldl remove s) place = d.entry? place := by
  induction staged generalizing s with
  | nil => exact ⟨h.cwd, fun place => by simpa using h.entry place⟩
  | cons x staged ih =>
    obtain ⟨temporary, content⟩ := x
    obtain ⟨hfresh, hrest⟩ := List.forall_mem_cons.mp h.fresh
    refine ih ⟨h.cwd, (List.nodup_cons.mp h.nodup).2, hrest,
      fun x hx => h.apart x (List.mem_cons_of_mem _ hx), fun place => ?_⟩
    rw [entry?_remove s (ne_nil_of_none hfresh), h.entry, lookup_cons_ite]
    by_cases hplace : place = temporary
    · subst hplace
      simp [h.lookup_temporary, hfresh]
    · simp [hplace]

end Holds

/-! ## the two loops -/

theorem stage_cases (d : Disk) (paths : List Path) (p : Path) (content : ByteArray) :
    (d.isDirectory (stagingOf p) = true ∧ ∃ here, d.stage paths p content =
      .ok (d.put (here ++ [d.temporaryName paths]) content, here ++ [d.temporaryName paths])) ∨
    (d.isDirectory (stagingOf p) = false ∧ ∃ e, d.stage paths p content =
      .error (.noStaging (stagingOf p) e)) := by
  cases hlocate : d.locate (stagingOf p) with
  | error e => exact .inr ⟨by rw [isDirectory, hlocate], e, by simp only [stage, hlocate]⟩
  | ok here =>
    cases hhere : d.isDirectoryAt here with
    | true =>
      refine .inl ⟨isDirectory_eq_true.mpr ⟨here, hlocate, hhere⟩, here, ?_⟩
      simp only [stage, hlocate, hhere, if_true]
    | false =>
      refine .inr ⟨by rw [isDirectory, hlocate]; exact hhere, .notDirectory, ?_⟩
      simp [stage, hlocate, hhere]

/-- All contents are staged, or none: then the disk is as it was. -/
theorem stageEach_cases (paths : List Path) (d : Disk) (files : List (Path × ByteArray)) :
    (d.canStage files = true ∧ ∃ s staged, d.stageEach paths files = (s, .ok (staged.map (·.1))) ∧
      staged.map (·.2) = files.map (·.2) ∧ Holds paths d staged s) ∨
    (d.canStage files = false ∧ ∃ s, (∃ x ∈ files, ∃ e,
      d.stageEach paths files = (s, .error (.noStaging (stagingOf x.1) e))) ∧
      s.cwd = d.cwd ∧ ∀ place, s.entry? place = d.entry? place) := by
  induction files generalizing d with
  | nil => exact .inl ⟨rfl, d, [], rfl, rfl, .none paths d⟩
  | cons x files ih =>
    obtain ⟨p, content⟩ := x
    unfold stageEach canStage
    rw [List.all_cons]
    obtain ⟨hdir, here, hstage⟩ | ⟨hdir, e, hstage⟩ := d.stage_cases paths p content
    · have hfresh := d.entry?_temporary paths here
      have hapart : ∀ p ∈ paths, d.target? p ≠ some (here ++ [d.temporaryName paths]) :=
        fun p hp => target?_ne_temporary hp here
      generalize here ++ [d.temporaryName paths] = temporary at hstage hfresh hapart
      have hne := ne_nil_of_none hfresh
      have hsame : SameDirectories d (d.put temporary content) :=
        sameDirectories_put content hne (by rw [isDirectoryAt, hfresh]; rfl)
      have hcan : (files.all fun x => d.isDirectory (stagingOf x.1)) =
          (d.put temporary content).canStage files := by
        simp only [canStage, hsame.isDirectory_eq]
      rw [hdir, hcan, Bool.true_and, hstage]
      obtain ⟨hall, s, staged, heq, hcontents, hholds⟩ | ⟨hall, s, ⟨x, hx, e, heq⟩, hcwd, hentry⟩ :=
        ih (d.put temporary content)
      · refine .inl ⟨hall, s, (temporary, content) :: staged, by simp only [heq, List.map_cons], ?_,
          .cons hfresh hapart hholds⟩
        rw [List.map_cons, List.map_cons, hcontents]
      · refine .inr ⟨hall, s.remove temporary,
          ⟨x, List.mem_cons_of_mem _ hx, e, by simp only [heq]⟩, hcwd.trans hsame.cwd,
            fun place => ?_⟩
        rw [entry?_remove s hne, hentry, entry?_put d content hne]
        by_cases hplace : place = temporary
        · rw [if_pos hplace, hplace, hfresh]
        · rw [if_neg hplace, if_neg hplace]
    · rw [hstage, hdir]
      exact .inr ⟨rfl, d, ⟨_, List.mem_cons_self, e, rfl⟩, rfl, fun _ => rfl⟩

theorem Holds.rename_cases {temporary : Place} {content : ByteArray}
    {staged : List (Place × ByteArray)}
    (h : Holds paths d ((temporary, content) :: staged) s) (p : Path) :
    (∃ here, d.target? p = some here ∧
      s.rename temporary p = .ok ((s.remove temporary).put here content)) ∨
    (d.target? p = Option.none ∧ ∃ e, s.rename temporary p = .error (.notReplaced p e)) := by
  rw [← h.sameDirectories.target?_eq p]
  have hentry : s.entry? temporary = some (.file content) := by simp [h.entry]
  cases htarget : s.target p with
  | error e => exact .inr ⟨by rw [target?, htarget]; rfl, e, by simp only [rename, htarget]⟩
  | ok here =>
    exact .inl ⟨here, by rw [target?, htarget]; rfl, by simp only [rename, htarget, hentry]⟩

/-- The files before the first failure are replaced, and no temporary file is left. -/
theorem replaceEach_eq {staged : List (Place × ByteArray)} (h : Holds paths d staged s)
    (hcontents : staged.map (·.2) = files.map (·.2)) (hpaths : ∀ x ∈ files, x.1 ∈ paths) :
    (s.replaceEach ((files.map (·.1)).zip (staged.map (·.1)))).1.cwd = d.cwd ∧
    (∀ place, entry? (s.replaceEach ((files.map (·.1)).zip (staged.map (·.1)))).1 place =
      d.overwritten (d.replaceable files) place) ∧
    ((s.replaceEach ((files.map (·.1)).zip (staged.map (·.1)))).2 = none ∧
      d.replaceable files = files ∨
      ∃ x rest e, files = d.replaceable files ++ x :: rest ∧ d.target? x.1 = none ∧
        (s.replaceEach ((files.map (·.1)).zip (staged.map (·.1)))).2 =
          some (.notReplaced x.1 e)) := by
  induction files generalizing d s staged with
  | nil =>
    obtain rfl : staged = [] := by simpa using hcontents
    exact ⟨h.cwd, fun place => (h.entry place).trans (by rfl), .inl ⟨rfl, rfl⟩⟩
  | cons x files ih =>
    obtain ⟨p, content⟩ := x
    cases staged with
    | nil => cases hcontents
    | cons y staged =>
      obtain ⟨temporary, content'⟩ := y
      simp only [List.map_cons, List.cons.injEq] at hcontents
      obtain ⟨rfl, hcontents⟩ := hcontents
      simp only [List.map_cons, List.zip_cons_cons, replaceEach]
      obtain ⟨here, hhere, hrename⟩ | ⟨hnone, e, hrename⟩ := h.rename_cases p
      · have hsame :=
          sameDirectories_put content' (target?_ne_nil hhere) (target?_not_directory hhere)
        have hreplaceable : d.replaceable ((p, content') :: files) =
            (p, content') :: (d.put here content').replaceable files := by
          simp only [replaceable, hsame.target?_eq]
          rw [List.takeWhile_cons_of_pos (by rw [hhere]; rfl)]
        obtain ⟨hcwd, hentry, hfailure⟩ :=
          ih (h.renamed (hpaths _ List.mem_cons_self) hhere) hcontents
          fun x hx => hpaths x (List.mem_cons_of_mem _ hx)
        rw [hrename, hreplaceable]
        refine ⟨hcwd.trans hsame.cwd, fun place => ?_, ?_⟩
        · rw [overwritten_cons hhere]
          exact hentry place
        · rcases hfailure with ⟨hnone, hall⟩ | ⟨x, rest, e, hfiles, hx, hfailure⟩
          · exact .inl ⟨hnone, by rw [hall]⟩
          · refine .inr ⟨x, rest, e, ?_, (hsame.target?_eq x.1).symm.trans hx, hfailure⟩
            rw [List.cons_append, ← hfiles]
      · have hreplaceable : d.replaceable ((p, content') :: files) = [] :=
          List.takeWhile_cons_of_neg (by rw [hnone]; decide)
        have hzip : ((files.map (·.1)).zip (staged.map (·.1))).map (·.2) = staged.map (·.1) := by
          refine List.map_snd_zip ?_
          rw [List.length_map, List.length_map]
          exact (by simpa using congrArg List.length hcontents : staged.length = files.length).le
        rw [hrename, hreplaceable]
        simp only [hzip]
        obtain ⟨hcwd, hentry⟩ := h.removed
        exact ⟨hcwd, hentry, .inr ⟨(p, content'), files, e, rfl, hnone, rfl⟩⟩

/-! ## all files -/

theorem replaceAll_eq (d : Disk) (files : List (Path × ByteArray)) :
    (d.replaceAll files).1.cwd = d.cwd ∧
    (∀ place, entry? (d.replaceAll files).1 place = d.overwritten (d.written files) place) ∧
    ((d.replaceAll files).2 = none ∧ d.written files = files ∨
      (d.canStage files = true ∧ ∃ x rest e, files = d.written files ++ x :: rest ∧
        d.target? x.1 = none ∧ (d.replaceAll files).2 = some (.notReplaced x.1 e)) ∨
      (d.canStage files = false ∧ d.written files = [] ∧
        ∃ x ∈ files, ∃ e, (d.replaceAll files).2 = some (.noStaging (stagingOf x.1) e))) := by
  unfold replaceAll written
  obtain ⟨hall, s, staged, heq, hcontents, hholds⟩ | ⟨hall, s, ⟨x, hx, e, heq⟩, hcwd, hentry⟩ :=
    d.stageEach_cases (files.map (·.1)) files
  · simp only [heq, hall, if_true]
    obtain ⟨hcwd, hentry, hfailure⟩ :=
      replaceEach_eq hholds hcontents fun x hx => List.mem_map_of_mem hx
    exact ⟨hcwd, hentry, hfailure.imp_right fun h => .inl ⟨trivial, h⟩⟩
  · simp only [heq, hall]
    exact ⟨hcwd, hentry, .inr (.inr ⟨trivial, rfl, x, hx, e, rfl⟩)⟩

theorem target?_of_mem_written (x : Path × ByteArray) (hx : x ∈ d.written files) :
    (d.target? x.1).isSome = true := by
  unfold written at hx
  split at hx
  · exact List.mem_takeWhile_imp (p := fun x : Path × ByteArray => (d.target? x.1).isSome) hx
  · cases hx

theorem written_eq_self_iff : d.written files = files ↔
    d.canStage files = true ∧ ∀ x ∈ files, (d.target? x.1).isSome = true := by
  unfold written
  cases hall : d.canStage files with
  | true => simp [replaceable]
  | false =>
    refine ⟨fun h => ?_, fun h => absurd h.1 Bool.false_ne_true⟩
    rw [← show [] = files from h] at hall
    cases hall

theorem replaceAll_eq_none_iff : (d.replaceAll files).2 = none ↔ d.written files = files := by
  obtain ⟨-, -, ⟨hnone, hall⟩ | ⟨-, x, rest, e, hfiles, -, hsome⟩ |
    ⟨-, hnothing, x, hx, e, hsome⟩⟩ := d.replaceAll_eq files
  · exact iff_of_true hnone hall
  · refine iff_of_false (by rw [hsome]; exact nofun) fun hall => ?_
    rw [hall] at hfiles
    simpa using congrArg List.length hfiles
  · refine iff_of_false (by rw [hsome]; exact nofun) fun hall => ?_
    rw [← hall, hnothing] at hx
    cases hx

/-- What a replacement does, whether it fails or not. In the end every place holds the last content
that was given for it among the files that are replaced, or what it held before, so that no
temporary file is left. All files are replaced just if all can be staged and every path ends in a
directory with a name that no directory has; then each path reads as the last content given for it.
If a content cannot be staged no file is replaced; but if a path cannot be replaced, then those
before it are. -/
theorem replaceAll_exact (d : Disk) (files : List (Path × ByteArray)) :
    (d.replaceAll files).1.cwd = d.cwd ∧
    (∀ place, entry? (d.replaceAll files).1 place = d.overwritten (d.written files) place) ∧
    ((d.replaceAll files).2 = none ↔
      d.canStage files = true ∧ ∀ x ∈ files, (d.target? x.1).isSome = true) ∧
    ((d.replaceAll files).2 = none → d.written files = files ∧
      ∀ before p content after, files = before ++ (p, content) :: after →
        (∀ x ∈ after, d.target? x.1 ≠ d.target? p) → (d.replaceAll files).1.read p = .ok content) ∧
    ∀ f, (d.replaceAll files).2 = some f →
      (d.canStage files = false ∧ d.written files = [] ∧
        ∃ x ∈ files, ∃ e, f = .noStaging (stagingOf x.1) e) ∨
      (d.canStage files = true ∧ ∃ x rest e, files = d.written files ++ x :: rest ∧
        (∀ y ∈ d.written files, (d.target? y.1).isSome = true) ∧ d.target? x.1 = none ∧
        f = .notReplaced x.1 e) := by
  obtain ⟨hcwd, hentry, hfailure⟩ := d.replaceAll_eq files
  refine ⟨hcwd, hentry, replaceAll_eq_none_iff.trans written_eq_self_iff, fun hnone => ?_,
    fun f hf => ?_⟩
  · have hall := replaceAll_eq_none_iff.mp hnone
    rw [hall] at hentry
    refine ⟨hall, fun before p content after hfiles hlast => ?_⟩
    have hmem : (p, content) ∈ d.written files := by
      rw [hall, hfiles]
      exact List.mem_append_right _ List.mem_cons_self
    exact read_overwritten hcwd hentry hfiles (target?_of_mem_written (p, content) hmem) hlast
  · rcases hfailure with ⟨hnone, -⟩ | ⟨hstaged, x, rest, e, hfiles, hx, hsome⟩ |
      ⟨hstaged, hnothing, x, hx, e, hsome⟩
    · rw [hnone] at hf
      cases hf
    · rw [hsome] at hf
      cases hf
      exact .inr ⟨hstaged, x, rest, e, hfiles, target?_of_mem_written, hx, rfl⟩
    · rw [hsome] at hf
      cases hf
      exact .inl ⟨hstaged, hnothing, x, hx, e, rfl⟩

def blocked : Disk := ⟨[(["a.go"], .file "old".toUTF8), (["d"], .directory)], []⟩

def blockedFiles : List (Path × ByteArray) := [(⟨"a.go"⟩, "new".toUTF8), (⟨"d"⟩, "x".toUTF8)]

/-- The file is replaced before the directory turns out not to be replaceable. -/
theorem replaceAll_blocked :
    (blocked.replaceAll blockedFiles).2 = some (.notReplaced ⟨"d"⟩ .isDirectory) ∧
    blocked.entry? ["a.go"] = some (.file "old".toUTF8) ∧
    entry? (blocked.replaceAll blockedFiles).1 ["a.go"] = some (.file "new".toUTF8) := by
  refine ⟨by decide +kernel, by decide +kernel, ?_⟩
  rw [(replaceAll_exact blocked blockedFiles).2.1]
  decide +kernel

end Disk

end ParamThreading
