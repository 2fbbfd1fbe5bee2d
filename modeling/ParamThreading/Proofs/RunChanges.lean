import ParamThreading.Proofs.AlreadyThreaded
import ParamThreading.Proofs.LoadedFiles
import ParamThreading.Proofs.RenderedTexts
import ParamThreading.Proofs.Replacing
import ParamThreading.Run

/-!
# What a run changes on disk

Nothing is written before all is planned, and nothing at all unless the run is asked to write; then
the files with insertions that the filter lets pass hold their new texts, and no other place
changes.

* `Job.edited`  the files with insertions that are to be written;
* `Job.Sound`  what is known of a job that was prepared on a disk;
* `Job.Sound.changes_eq`  what is written are the new texts of those files;
* `run_changes`  the places that a run changes, and what it reports.
-/

namespace ParamThreading

open CommandLine (Arguments)

/-! ## places of files -/

namespace Program

variable {d : Disk} {p : Program} {id id' : FileId}

def placeOf (p : Program) (d : Disk) (id : FileId) : Place :=
  ((d.locate (p.file id).path).toOption).getD []

theorem OnDisk.holdsText (h : p.OnDisk d) (hid : id < p.files.length) :
    d.HoldsText (p.file id).path (p.placeOf d id) (p.file id).text := by
  obtain ⟨place, hholds⟩ := h.held _ (file_mem hid)
  have hplace : p.placeOf d id = place := by
    rw [placeOf, hholds.1]
    rfl
  rwa [hplace]

theorem OnDisk.placeOf_inj (h : p.OnDisk d) (hid : id < p.files.length)
    (hid' : id' < p.files.length) (heq : p.placeOf d id = p.placeOf d id') : id = id' := by
  have hlocate : d.locate (p.file id).path = d.locate (p.file id').path := by
    rw [(h.holdsText hid).1, (h.holdsText hid').1, heq]
  have hfile : ∀ {i : FileId} (hi : i < p.files.length), p.file i = p.files[i] := by
    intro i hi
    rw [file, List.getElem?_eq_getElem hi, Option.getD_some]
  rw [hfile hid, hfile hid'] at hlocate
  by_contra hne
  rcases Nat.lt_or_gt_of_ne hne with hlt | hlt
  · exact List.pairwise_iff_getElem.mp h.apart id id' hid hid' hlt hlocate
  · exact List.pairwise_iff_getElem.mp h.apart id' id hid' hid hlt hlocate.symm

end Program

/-! ## jobs -/

namespace Job

def applied (job : Job) : Applied := apply job.program job.frontier job.request

/-- The files that have insertions and are to be written. -/
def edited (job : Job) : List FileId :=
  job.frontier.touchedFiles.filter fun id =>
    job.selects id && !(job.applied.edits.insertions id).isEmpty

def rendered (job : Job) (id : FileId) : String := job.applied.edits.render job.program id

def replacement (job : Job) (id : FileId) : Path × ByteArray :=
  ((job.program.file id).path, (job.rendered id).toUTF8)

/-- The job is about a program whose files are at different places of the disk, and has the frontier
of its request. -/
structure Sound (d : Disk) (job : Job) : Prop where
  loaded : job.program.Loaded
  onDisk : job.program.OnDisk d
  planned : plan job.program d.canonical? job.request = .ok job.frontier
  named : job.request.name ≠ ""

end Job

theorem Request.name_ne_of_parse {arg position : String} {skip : Bool} {request : Request}
    (h : parse arg position skip = .ok request) : request.name ≠ "" := by
  unfold parse at h
  split at h
  · cases h
  · dsimp only at h
    split at h
    case isTrue => cases h
    case isFalse hne =>
      cases h
      intro hempty
      refine hne ?_
      rw [Bool.or_eq_true]
      exact .inl (by simpa using congrArg String.toList hempty)

namespace Job

variable {d : Disk} {environment : List (String × String)} {args : Arguments} {job : Job}
    {id : FileId}

theorem sound_of_prepare (hd : d.isNamed = true) (h : prepare d environment args = .ok job) :
    job.Sound d := by
  obtain ⟨settings, -, h⟩ := bind_eq_ok.mp h
  dsimp only at h
  split at h
  · cases h
  · obtain ⟨request, hrequest, h⟩ := bind_eq_ok.mp h
    obtain ⟨program, hprogram, h⟩ := bind_eq_ok.mp h
    obtain ⟨frontier, hfrontier, h⟩ := bind_eq_ok.mp h
    cases h
    exact ⟨.targets hprogram, Program.onDisk_of_load hd hprogram, hfrontier,
      Request.name_ne_of_parse hrequest⟩

namespace Sound

theorem proper (h : job.Sound d) : job.frontier.Proper job.program := by
  obtain ⟨hroots, declaration, hselects⟩ := plan_selects h.loaded.wellFormed h.planned
  obtain ⟨frontier, hplan, hproper, -⟩ := plan_proper h.loaded hroots hselects
  cases h.planned.symm.trans hplan
  exact hproper

theorem rendered_eq_iff (h : job.Sound d) (id : FileId) :
    job.rendered id = (job.program.file id).text ↔ job.applied.edits.insertions id = [] :=
  h.proper.render_eq_iff h.loaded.wellFormed h.named id

/-- What is written are the new texts of the files with insertions that the filter lets pass. -/
theorem changes_eq (h : job.Sound d) : job.changes job.applied.edits =
    job.edited.map fun id => ((job.program.file id).path, job.rendered id) := by
  unfold changes edited selected
  rw [List.filter_filter]
  congr 1
  refine List.filter_congr fun id _ => ?_
  rw [Bool.and_comm]
  congr 1
  rw [Bool.eq_iff_iff, bne_iff_ne, Bool.not_eq_true', List.isEmpty_eq_false_iff]
  exact not_congr (h.rendered_eq_iff id)

theorem nodup_edited (job : Job) : job.edited.Nodup :=
  (nodup_eraseDups _).filter _

theorem of_mem_edited (h : job.Sound d) (hid : id ∈ job.edited) :
    id < job.program.files.length ∧ job.rendered id ≠ (job.program.file id).text := by
  obtain ⟨-, hid⟩ := List.mem_filter.mp hid
  rw [Bool.and_eq_true, Bool.not_eq_true', List.isEmpty_eq_false_iff] at hid
  refine ⟨?_, mt (h.rendered_eq_iff id).mp hid.2⟩
  obtain ⟨i, hi⟩ := List.exists_mem_of_ne_nil _ hid.2
  have hp := h.loaded.wellFormed
  rw [applied, h.proper.insertions_eq hp] at hi
  obtain ⟨t, ht, -⟩ := List.mem_map.mp hi
  obtain ⟨htarget, -, rfl⟩ := Program.mem_due.mp ht
  exact (h.proper.target_cases hp htarget).1.node.loaded

/-- The new contents of files are put at the places of the files, and nowhere else. -/
theorem replaced (h : job.Sound d) {s : Disk} (hcwd : s.cwd = d.cwd)
    (hentry : ∀ place, s.entry? place = d.overwritten (job.edited.map job.replacement) place)
    (htarget : ∀ x ∈ job.edited.map job.replacement, (d.target? x.1).isSome = true) :
    (∀ id ∈ job.edited,
      s.HoldsText (job.program.file id).path (job.program.placeOf d id) (job.rendered id)) ∧
    (job.edited.map (job.program.placeOf d)).Nodup ∧
    ∀ place, s.entry? place ≠ d.entry? place ↔ place ∈ job.edited.map (job.program.placeOf d) := by
  have hplace : ∀ id ∈ job.edited,
      d.target? (job.program.file id).path = some (job.program.placeOf d id) := by
    intro id hid
    obtain ⟨place, htarget⟩ := Option.isSome_iff_exists.mp (htarget _ (List.mem_map_of_mem hid))
    rw [Disk.eq_of_locate htarget (h.onDisk.holdsText (h.of_mem_edited hid).1).1]
    exact htarget
  have hinj : ∀ id ∈ job.edited, ∀ id' ∈ job.edited,
      job.program.placeOf d id = job.program.placeOf d id' → id = id' := fun id hid id' hid' =>
    h.onDisk.placeOf_inj (h.of_mem_edited hid).1 (h.of_mem_edited hid').1
  have hnew : ∀ id ∈ job.edited,
      s.entry? (job.program.placeOf d id) = some (.file (job.rendered id).toUTF8) := by
    intro id hid
    rw [hentry]
    refine Disk.overwritten_of_unique (List.mem_map_of_mem hid) (hplace id hid) fun y hy hy' => ?_
    obtain ⟨id', hid', rfl⟩ := List.mem_map.mp hy
    have hsame := (hplace id' hid').symm.trans hy'
    rw [hinj id' hid' id hid (Option.some.inj hsame)]
  refine ⟨fun id hid => ⟨?_, hnew id hid⟩, (nodup_edited job).map_on hinj,
    fun place => ⟨fun hne => ?_, fun hmem => ?_⟩⟩
  · have hsame := Disk.sameDirectories_overwritten hcwd hentry
    rw [Disk.locate_eq_of_target? ((hsame.target?_eq _).trans (hplace id hid)), hnew id hid]
    rfl
  · -- other places are not touched
    by_contra hnot
    refine hne ((hentry place).trans (Disk.overwritten_of_not_mem fun x hx htarget => hnot ?_))
    obtain ⟨id, hid, rfl⟩ := List.mem_map.mp hx
    rw [← Option.some.inj ((hplace id hid).symm.trans htarget)]
    exact List.mem_map_of_mem hid
  · obtain ⟨id, hid, rfl⟩ := List.mem_map.mp hmem
    obtain ⟨hloaded, hdiffers⟩ := h.of_mem_edited hid
    rw [hnew id hid, (h.onDisk.holdsText hloaded).2]
    intro heq
    injection heq with heq
    injection heq with heq
    exact hdiffers (String.toByteArray_inj.mp heq)

end Sound

end Job

/-! ## runs -/

theorem writeChanges_eq (d : Disk) (args : Arguments) (changes : List (Path × String))
    (warnings : List String) :
    (writeChanges d args changes warnings).disk =
      (d.replaceAll (changes.map fun x => (x.1, x.2.toUTF8))).1 ∧
    (writeChanges d args changes warnings).failure =
      (d.replaceAll (changes.map fun x => (x.1, x.2.toUTF8))).2.map Failure.notWritten ∧
    ((writeChanges d args changes warnings).failure = none →
      (writeChanges d args changes warnings).output = if args.quiet then "" else
        "✓ Updated " ++ toString changes.length ++ " file(s)\n") := by
  unfold writeChanges
  generalize d.replaceAll (changes.map fun x => (x.1, x.2.toUTF8)) = result
  obtain ⟨disk, _ | cause⟩ := result
  · exact ⟨rfl, rfl, fun _ => rfl⟩
  · exact ⟨rfl, rfl, nofun⟩

section
variable {d : Disk} {environment : List (String × String)} {args : Arguments} {job : Job}

theorem run_write (hd : d.isNamed = true) (h : Job.prepare d environment args = .ok job)
    (hdry : args.dryRun = false) (hwrite : args.write = true) :
    (run d environment args).disk = (d.replaceAll (job.edited.map job.replacement)).1 ∧
    (run d environment args).failure =
      (d.replaceAll (job.edited.map job.replacement)).2.map Failure.notWritten ∧
    ((run d environment args).failure = none →
      (run d environment args).output = if args.quiet then "" else
        "✓ Updated " ++ toString job.edited.length ++ " file(s)\n") := by
  have hchanges := (Job.sound_of_prepare hd h).changes_eq
  have hfiles : ((job.changes job.applied.edits).map fun x => (x.1, x.2.toUTF8)) =
      job.edited.map job.replacement := by
    rw [hchanges, List.map_map]
    rfl
  have hlength : (job.changes job.applied.edits).length = job.edited.length := by
    rw [hchanges, List.length_map]
  have hrun : run d environment args =
      writeChanges d args (job.changes job.applied.edits) (job.warnings job.applied) := by
    simp only [run, h, Job.perform, hdry, hwrite]
    rfl
  rw [hrun, ← hfiles, ← hlength]
  exact writeChanges_eq d args _ _

theorem run_show (h : Job.prepare d environment args = .ok job)
    (hshow : args.dryRun = true ∨ args.write = false) :
    (run d environment args).disk = d ∧ (run d environment args).failure = none := by
  simp only [run, h, Job.perform]
  rcases hshow with hdry | hwrite
  · simp [hdry]
  · cases args.dryRun <;> simp [hwrite]

end

/-- What a run changes on disk. If it fails before anything is written, or is not asked to write, or
only shows its plan, the disk stays as it is. If it is asked to write and succeeds, the places that
change are those of the files with insertions which the filter lets pass, each of them once; they
hold the new texts of the files, and the run reports their number. -/
theorem run_changes (d : Disk) (hd : d.isNamed = true) (environment : List (String × String))
    (args : Arguments) :
    ((∃ f, Job.prepare d environment args = .error f) ∨
      (∃ f, (run d environment args).failure = some f ∧ ∀ cause, f ≠ .notWritten cause) ∨
      args.dryRun = true ∨ args.write = false → (run d environment args).disk = d) ∧
    (args.dryRun = false → args.write = true → (run d environment args).failure = none →
      ∃ job, Job.prepare d environment args = .ok job ∧
        (run d environment args).disk.cwd = d.cwd ∧
        (job.edited.map (job.program.placeOf d)).Nodup ∧
        (∀ place, Disk.entry? (run d environment args).disk place ≠ d.entry? place ↔
          place ∈ job.edited.map (job.program.placeOf d)) ∧
        (∀ id ∈ job.edited,
          d.HoldsText (job.program.file id).path (job.program.placeOf d id)
            (job.program.file id).text ∧
          (run d environment args).disk.HoldsText (job.program.file id).path
            (job.program.placeOf d id) (job.rendered id)) ∧
        (run d environment args).output = if args.quiet then "" else
          "✓ Updated " ++ toString (job.edited.map (job.program.placeOf d)).length ++
            " file(s)\n") := by
  cases hprepare : Job.prepare d environment args with
  | error f =>
    have hrun : run d environment args = ⟨d, "", [], some f⟩ := by rw [run, hprepare]
    rw [hrun]
    exact ⟨fun _ => rfl, fun _ _ => nofun⟩
  | ok job =>
    have hsound := Job.sound_of_prepare hd hprepare
    refine ⟨fun hkept => ?_, fun hdry hwrite hnone => ⟨job, rfl, ?_⟩⟩
    · by_cases hshow : args.dryRun = true ∨ args.write = false
      · exact (run_show hprepare hshow).1
      · -- a run that writes fails only when it writes
        rw [not_or, Bool.not_eq_true, Bool.not_eq_false] at hshow
        obtain ⟨-, hfailure, -⟩ := run_write hd hprepare hshow.1 hshow.2
        rcases hkept with ⟨f, hf⟩ | ⟨f, hf, hother⟩ | hdry | hwrite
        · cases hf
        · rw [hfailure] at hf
          obtain ⟨cause, -, hcause⟩ := Option.map_eq_some_iff.mp hf
          exact absurd hcause.symm (hother cause)
        · exact absurd hdry (by simp [hshow.1])
        · exact absurd hwrite (by simp [hshow.2])
    · obtain ⟨hdisk, hfailure, houtput⟩ := run_write hd hprepare hdry hwrite
      have houtput := houtput hnone
      rw [hnone] at hfailure
      have hwritten := Disk.replaceAll_eq_none_iff.mp (Option.map_eq_none_iff.mp hfailure.symm)
      obtain ⟨hcwd, hentry, -⟩ := d.replaceAll_eq (job.edited.map job.replacement)
      rw [hwritten, ← hdisk] at hentry
      rw [← hdisk] at hcwd
      obtain ⟨hholds, hnodup, hchanged⟩ := hsound.replaced hcwd hentry
        (Disk.written_eq_self_iff.mp hwritten).2
      refine ⟨hcwd, hnodup, hchanged, fun id hid => ⟨?_, hholds id hid⟩, ?_⟩
      · exact hsound.onDisk.holdsText (hsound.of_mem_edited hid).1
      · rw [houtput, List.length_map]

/-! ## a run that can be evaluated -/

/-- The job of a run passes a check, and its walk is over after a number of turns. -/
def Job.preparedWithin (turns : Nat) (d : Disk) (environment : List (String × String))
    (args : Arguments) (check : Job → Bool) : Bool :=
  (Settings.load d environment args.config).toOption.any fun settings =>
    (Regexp.parse (args.packageRegexp.getD settings.packageRegexp)).any fun filter =>
      (Request.parse args.arg args.pos (args.skipExists.getD settings.skipExists)).toOption.any
        fun request =>
        (Program.load d args.targets (loadOptions settings)).toOption.any fun program =>
          (planWithin turns program d.canonical? request).toOption.any fun frontier? =>
            frontier?.any fun frontier => check ⟨program, request, frontier,
              args.packageRegexp.getD settings.packageRegexp, filter⟩

theorem Job.exists_prepare {turns : Nat} {d : Disk} {environment : List (String × String)}
    {args : Arguments} {check : Job → Bool}
    (h : preparedWithin turns d environment args check = true) :
    ∃ job, prepare d environment args = .ok job ∧ check job = true := by
  obtain ⟨settings, hsettings, h⟩ := any_toOption.mp h
  rw [Option.any_eq_true] at h
  obtain ⟨filter, hfilter, h⟩ := h
  obtain ⟨request, hrequest, h⟩ := any_toOption.mp h
  obtain ⟨program, hprogram, h⟩ := any_toOption.mp h
  obtain ⟨frontier?, hplan, h⟩ := any_toOption.mp h
  rw [Option.any_eq_true] at h
  obtain ⟨frontier, rfl, h⟩ := h
  refine ⟨_, ?_, h⟩
  unfold prepare
  rw [hsettings]
  simp only [Except.mapError, bind_eq_ok]
  refine ⟨settings, rfl, ?_⟩
  rw [hfilter]
  simp only [bind_eq_ok]
  exact ⟨request, hrequest, program, hprogram, frontier, plan_of_planWithin hplan, rfl⟩

def callingDisk : Disk :=
  ⟨[(["main.go"], .file "package main\nfunc f() {}\nfunc main() { f() }\n".toUTF8),
    (["notes.txt"], .file "f".toUTF8)], []⟩

def callingArguments : Arguments where
  arg := "n int"
  pos := "main.go:#18"
  write := true
  skipExists := none
  packageRegexp := some "main"
  diff := false
  config := none
  targets := []
  noColor := true
  quiet := false
  dryRun := false
  verbose := 0

def callingEdits : Edits :=
  ⟨[(0, ⟨20, .parameter "n" "int", "n int"⟩), (0, ⟨35, .parameter "n" "int", "n int"⟩),
    (0, ⟨41, .argument "n", "n"⟩)]⟩

theorem ordered_callingEdits :
    Edits.ordered (callingEdits.insertions 0) = callingEdits.insertions 0 := by
  simp [callingEdits, Edits.insertions, Edits.ordered, List.mergeSort]

/-- The run succeeds, and changes the file of the program only. -/
theorem run_changes_calling : callingDisk.isNamed = true ∧
    (run callingDisk [] callingArguments).failure = none ∧
    (∀ place, Disk.entry? (run callingDisk [] callingArguments).disk place ≠
      callingDisk.entry? place ↔ place = ["main.go"]) ∧
    Disk.entry? (run callingDisk [] callingArguments).disk ["main.go"] =
      some (.file "package main\nfunc f(n int) {}\nfunc main(n int) { f(n) }\n".toUTF8) ∧
    (run callingDisk [] callingArguments).output = "✓ Updated 1 file(s)\n" := by
  have hd : callingDisk.isNamed = true := by decide +kernel
  have hchecked : Job.preparedWithin 4 callingDisk [] callingArguments
      (fun job => job.edited == [0] &&
      job.program.placeOf callingDisk 0 == ["main.go"] && job.applied.edits == callingEdits &&
      (job.program.file 0).path == ⟨"main.go"⟩ && (job.program.file 0).text ==
        "package main\nfunc f() {}\nfunc main() { f() }\n") = true := by decide +kernel
  obtain ⟨job, hprepare, hjob⟩ := Job.exists_prepare hchecked
  simp only [Bool.and_eq_true, beq_iff_eq] at hjob
  obtain ⟨⟨⟨⟨hedited, hplace⟩, hedits⟩, hpath⟩, htext⟩ := hjob
  have hrendered :
      job.rendered 0 = "package main\nfunc f(n int) {}\nfunc main(n int) { f(n) }\n" := by
    rw [Job.rendered, Edits.render, hedits, htext, ordered_callingEdits]
    decide +kernel
  have hnone : (run callingDisk [] callingArguments).failure = none := by
    have hstaged : callingDisk.isDirectory (Disk.stagingOf ⟨"main.go"⟩) = true := by decide +kernel
    have htarget : (callingDisk.target? ⟨"main.go"⟩).isSome = true := by decide +kernel
    rw [(run_write hd hprepare rfl rfl).2.1, Option.map_eq_none_iff, Disk.replaceAll_eq_none_iff,
      Disk.written_eq_self_iff, hedited, List.map_singleton, List.forall_mem_singleton,
        Disk.canStage,
      List.all_cons, List.all_nil, Bool.and_true, Job.replacement, hpath]
    exact ⟨hstaged, htarget⟩
  obtain ⟨job', hprepare', -, -, hchanged, hholds, houtput⟩ :=
    (run_changes callingDisk hd [] callingArguments).2 rfl rfl hnone
  cases hprepare.symm.trans hprepare'
  rw [hedited, List.map_singleton, hplace] at hchanged houtput
  have hnew := (hholds 0 (by rw [hedited]; exact List.mem_singleton_self _)).2.2
  rw [hplace, hrendered] at hnew
  exact ⟨hd, hnone, fun place => (hchanged place).trans List.mem_singleton, hnew, houtput⟩

end ParamThreading
