import ParamThreading.Proofs.Assembly
import ParamThreading.Proofs.PackageNames

/-!
# Calls of methods on variables of a package

The package keeps the type of a variable as it is written, and each file that uses the variable
reads it with its own imports. A plain name of a type means the same in all files of a package; a
qualified one does if the files agree on what the qualifier stands for.

* `Item.Typed`  a variable that is known by its declared type;
* `Program.typeTarget_eq`  when two files read a type alike;
* `Names.callees_packageVariable`  the callees of a method call on a variable of the package.
-/

namespace ParamThreading

/-! ## variables and their types -/

/-- Each place of a name in an item declares the type for it, and gives it no literal. -/
def Item.Typed (p : Program) (item : Item) (x t : String) : Prop :=
  ∀ o ∈ item.occurrences, o.name (p.file item.file).text = x →
    (o.node.kind = .varSpec ∨ o.node.kind = .constSpec) ∧
      o.declared? (p.file item.file).text = some t ∧ o.literal? (p.file item.file).text = none

theorem Item.Declares.exists_occurrence {p : Program} {item : Item} {package : PackageId}
    {x : String} (h : item.Declares p package x) : ∃ o ∈ item.occurrences,
      o.name (p.file item.file).text = x ∧ o.countsIf false = true := by
  obtain ⟨spec, hspec, hname⟩ := List.mem_flatMap.mp h.name
  obtain ⟨hspec, hk⟩ := List.mem_filter.mp (List.mem_reverse.mp hspec)
  obtain ⟨target, htarget, rfl⟩ := List.mem_map.mp hname
  have hk : spec.kind = .varSpec ∨ spec.kind = .constSpec := by simpa using hk
  have hpath : ∃ ps, Node.Path item.node (spec :: ps) := by
    obtain ⟨c, hc, hspec⟩ := List.mem_flatMap.mp hspec
    obtain ⟨hc, hnamed⟩ := List.mem_filter.mp hc
    split at hspec
    · obtain ⟨hspec, hnamed'⟩ := List.mem_filter.mp hspec
      exact ⟨_, .child (.child .root hc hnamed) hspec hnamed'⟩
    · rw [List.mem_singleton.mp hspec]
      exact ⟨_, .child .root hc hnamed⟩
  obtain ⟨ps, hpath⟩ := hpath
  have htargets : target ∈ spec.targets := by
    rcases hk with hk | hk <;> simpa [Node.targets, hk] using htarget
  obtain ⟨o, ho, rfl⟩ := Node.exists_occurrence htargets
  refine ⟨o, List.mem_flatMap.mpr ⟨spec, hpath.mem_backward List.mem_cons_self, ho⟩, rfl, ?_⟩
  have hnode := Node.node_of_mem_occurrences ho
  rcases hk with hk | hk <;> simp [Occurrence.countsIf, hnode, hk]

namespace Names

variable {names : Names} {file : FileId} {bs : Bindings} {x t : String}

theorem tells?_typed {o : Occurrence} (hk : o.node.kind = .varSpec ∨ o.node.kind = .constSpec)
    (hdeclared : o.declared? (names.program.file file).text = some t)
    (hliteral : o.literal? (names.program.file file).text = none) :
    names.tells? file bs o = some (.type t) := by
  have hgiven : ∀ f, names.given file bs o ≠ .literal f := by
    intro f hf
    rw [given_eq_literal, givenFunction?, hliteral] at hf
    cases hf
  unfold tells?
  rcases hk with hk | hk <;> simp only [hk, hdeclared]

/-- If all places of a name tell the same, no other value is recorded for it. -/
theorem get?_foldl_recordAt_same {os : List Occurrence} {value : Binding}
    (h : ∀ o ∈ os, o.name (names.program.file file).text = x →
      ∀ bs, names.tells? file bs o = some value)
    (hbs : ∀ old, bs.get? x = some old → old = value) :
    ∀ last, (os.foldl (names.recordAt file) bs).get? x = some last → last = value := by
  induction os generalizing bs with
  | nil => exact hbs
  | cons o os ih =>
    refine ih (fun o' ho' => h o' (List.mem_cons_of_mem o ho')) fun old hold => ?_
    by_cases hname : o.name (names.program.file file).text = x
    · rw [recordAt, h o List.mem_cons_self hname bs] at hold
      dsimp only at hold
      rw [Bindings.get?_bind] at hold
      split at hold
      · exact (Option.some.inj hold).symm
      · exact hbs old hold
    · rw [get?_recordAt_other hname] at hold
      exact hbs old hold

end Names

/-! ## types in two files -/

namespace Program

variable {p : Program} {file file' : FileId} {t : String}

/-- Files of a package read a plain name of a type alike, and a qualified one if they agree on the
qualifier. -/
theorem typeTarget_eq (hpackage : (p.file file).package = (p.file file').package)
    (h : ∀ qualifier name, Cut.cut? '.' t.toList = some (qualifier, name) →
      p.imported file (String.ofList qualifier) = p.imported file' (String.ofList qualifier)) :
    p.typeTarget file t = p.typeTarget file' t := by
  unfold typeTarget
  cases hcut : Cut.cut? '.' t.toList with
  | none => rw [hpackage]
  | some parts =>
    obtain ⟨qualifier, name⟩ := parts
    dsimp only
    rw [h qualifier name hcut]

end Program

namespace Names

variable {names : Names} {target : TypeTarget} {m : String}

theorem method?_mem {package : PackageId} {type : String} {f : FunctionId}
    (h : names.method? package type m = some f) : f ∈ names.methodsNamed m := by
  unfold method? at h
  obtain ⟨hf, hmethod⟩ := List.mem_filter.mp (List.mem_of_getLast? h)
  refine List.mem_filter.mpr ⟨hf, ?_⟩
  obtain ⟨g, hg, hkind⟩ := (Option.any_eq_true _ _).mp hmethod
  rw [hg]
  obtain ⟨kind, node⟩ := g
  cases kind with
  | method => simp_all
  | _ => cases hkind

/-- A call of a method on a value of some type reaches nothing just if the type is foreign or no
method has the name. -/
theorem methodsOn_eq_nil : names.methodsOn target m = [] ↔ target = .foreign ∨
    names.methodsNamed m = [] := by
  cases target with
  | foreign => simp [methodsOn]
  | unknown => simp [methodsOn]
  | loaded package type =>
    cases hmethod : names.method? package type m with
    | none => simp [methodsOn, hmethod]
    | some f =>
      have hne := List.ne_nil_of_mem (method?_mem hmethod)
      simp [methodsOn, hmethod, hne]

end Names

/-! ## calls -/

section
variable {p : Program} {i : Nat} {item : Item} {x : String}

/-- What is known of a variable or constant of a package is what the last item that declares it
knows of it. -/
theorem Program.lookup_declared (hi : p.items[i]? = some item)
    (hdeclares : item.Declares p (p.file item.file).package x)
    (hlast : ∀ j ∈ p.items.drop (i + 1), ¬ j.Declares p (p.file item.file).package x)
    {value : Binding}
    (hvalue : ((p.namesAt i).bindingsOf item).get? x = some value) :
    (Names.ofProgram p).1.packageBindings.lookup ((p.file item.file).package, x) = some value := by
  rw [← namesAfter_items]
  nth_rewrite 1 [← take_append_cons_drop hi]
  rw [List.append_cons, lookup_namesAfter hlast, namesAfter_append_singleton]
  refine Names.lookup_exporting_declared ?_ hvalue
  rw [program_namesAfter]
  exact hdeclares

/-- The callees of a method call on a variable whose type stands in the file `home`, from another
file. -/
structure Names.ReadsType (names : Names) (home file : FileId) (t m : String)
    (callees : List FunctionId) : Prop where
  here : callees = names.methodsOn (names.program.typeTarget file t) m
  /-- They are those of the type in its own file if both files agree on its qualifier, if any. -/
  alike : (∀ qualifier name, Cut.cut? '.' t.toList = some (qualifier, name) →
      names.program.imported file (String.ofList qualifier) =
        names.program.imported home (String.ofList qualifier)) →
    callees = names.methodsOn (names.program.typeTarget home t) m
  /-- For a type from outside the program there are none just if the other file takes it for one,
  too, or no method has the name. -/
  foreign : names.program.typeTarget home t = .foreign →
    (callees = [] ↔ names.program.typeTarget file t = .foreign ∨ names.methodsNamed m = [])

theorem Names.readsType {names : Names} {home file : FileId} {t m : String}
    {callees : List FunctionId}
    (hpackage : (names.program.file file).package = (names.program.file home).package)
    (h : callees = names.methodsOf file (.type t) m) : names.ReadsType home file t m callees := by
  refine ⟨h, fun halike => ?_, fun _ => ?_⟩
  · rw [← Program.typeTarget_eq hpackage halike]
    exact h
  · rw [h]
    exact methodsOn_eq_nil

/-- A variable of a package is known by what the last item that declares it knows of it, which is
its declared type if all places of the name in the item say so. In an item of the package that does
not bind the name, a call of a method on it reaches what the calling file takes this for. -/
theorem Names.callees_packageVariable (hi : p.items[i]? = some item)
    (hdeclares : item.Declares p (p.file item.file).package x) (hx : x ≠ "_")
    (hlast : ∀ j ∈ p.items.drop (i + 1), ¬ j.Declares p (p.file item.file).package x) :
    ∃ value, ((p.namesAt i).bindingsOf item).get? x = some value ∧
      (∀ t, item.Typed p x t → value = .type t) ∧
      ∀ j bs call m, (j, bs) ∈ (ofProgram p).2 →
        (p.file j.file).package = (p.file item.file).package →
        (∀ o ∈ j.occurrences, o.name (p.file j.file).text = x →
          (ofProgram p).1.counts j.file o = false) →
        call.methodCall? (p.file j.file).text = some (x, m) →
        (ofProgram p).1.callees j.file bs call = (ofProgram p).1.methodsOf j.file value m ∧
        ∀ t, value = .type t → (ofProgram p).1.ReadsType item.file j.file t m
          ((ofProgram p).1.callees j.file bs call) := by
  have hbound : (((p.namesAt i).bindingsOf item).get? x).isSome = true := by
    obtain ⟨o, ho, hname, hcounts⟩ := hdeclares.exists_occurrence
    rw [bindingsOf_eq, isSome_foldl_recordAt hx, Program.program_namesAfter]
    exact .inr ⟨o, ho, hname, counts_of_countsIf hcounts⟩
  obtain ⟨value, hvalue⟩ := Option.isSome_iff_exists.mp hbound
  have hlookup := Program.lookup_declared hi hdeclares hlast hvalue
  refine ⟨value, hvalue, fun t htyped => ?_, fun j bs call m hscan hpackage hunbound hcall => ?_⟩
  · rw [bindingsOf_eq] at hvalue
    refine get?_foldl_recordAt_same (fun o ho hname bs => ?_) (fun old hold => ?_) value hvalue
    · rw [Program.program_namesAfter] at hname
      obtain ⟨hk, hdeclared, hliteral⟩ := htyped o ho hname
      exact tells?_typed hk (by rw [Program.program_namesAfter]; exact hdeclared)
        (by rw [Program.program_namesAfter]; exact hliteral)
    · cases hold
  · have hnone : bs.get? x = none := by
      obtain ⟨earlier, later, -, rfl⟩ := Program.mem_scanned.mp hscan
      rw [← Option.not_isSome_iff_eq_none, bindingsOf_eq, isSome_foldl_recordAt hx,
        Program.program_namesAfter]
      rintro (h | ⟨o, ho, hname, hcounts⟩)
      · cases h
      · have hsame : (p.namesAfter earlier).counts j.file o = (ofProgram p).1.counts j.file o := by
          refine counts_congr ?_ ?_
          · rw [Program.program_namesAfter, program_ofProgram]
          · rw [Program.functions_namesAfter, functions_ofProgram]
        rw [hsame, hunbound o ho hname] at hcounts
        cases hcounts
    have hcallees : (ofProgram p).1.callees j.file bs call =
        (ofProgram p).1.methodsOf j.file value m := by
      refine callees_selector (by rw [program_ofProgram]; exact hcall) ?_
      rw [lookup, hnone, Option.none_or, program_ofProgram, hpackage]
      exact hlookup
    refine ⟨hcallees, fun t ht => ?_⟩
    subst ht
    exact readsType (by rw [program_ofProgram]; exact hpackage) hcallees

end

/-! ## a variable that is used in another file -/

theorem Program.assemble_pair {f g : ParsedFile} (hgroup : g.group = f.group)
    (hle : f.path.le g.path = true) (base : List Component) (module : Option String) :
    assemble [f, g] base module =
      ⟨[fileOf 0 f, fileOf 0 g], [packageOf base module f.group [f, g] 0]⟩ := by
  have hgroups : ([f, g].map (·.group)).eraseDups.mergeSort groupLe = [f.group] := by
    simp [List.eraseDups_cons, hgroup]
  have hmembers : ([f, g].filter (·.group = f.group)).mergeSort (fun a b => a.path.le b.path) =
      [f, g] := by
    rw [List.filter_eq_self.mpr (by simp [hgroup])]
    exact List.mergeSort_of_pairwise (by simp [hle])
  unfold assemble
  dsimp only
  rw [hgroups, List.foldl_cons, List.foldl_nil, addGroup]
  dsimp only
  rw [hmembers]
  rfl

/-- A program of two sources in the order of their paths is evaluated without sorting. -/
theorem Program.ofSources_pair {a b : Path × String} {check : Program → Bool}
    (h : (ParsedFile.ofText a.1 a.1 a.2 true).toOption.any (fun f =>
      (ParsedFile.ofText b.1 b.1 b.2 true).toOption.any fun g =>
        decide (g.group = f.group) && f.path.le g.path &&
          check ⟨[fileOf 0 f, fileOf 0 g], [packageOf [] none f.group [f, g] 0]⟩) = true) :
    ∃ p, ofSources (fun _ => none) [a, b] = .ok p ∧ check p = true := by
  obtain ⟨f, hf, h⟩ := any_toOption.mp h
  obtain ⟨g, hg, h⟩ := any_toOption.mp h
  simp only [Bool.and_eq_true, decide_eq_true_eq] at h
  obtain ⟨⟨hgroup, hle⟩, hcheck⟩ := h
  exact ⟨_, ofSources_eq_ok.mpr ⟨[f, g], .cons hf (.cons hg .nil),
    assemble_pair hgroup hle [] none⟩, hcheck⟩

def writerSources : List (Path × String) :=
  [(⟨"a.go"⟩, "package p\n\nimport \"io\"\n\nvar w io.Writer\n"),
    (⟨"b.go"⟩, "package p\n\nfunc (t T) Write() \x7b\x7d\n\nfunc f() \x7b\n\tw.Write()\n\x7d\n")]

/-- The file of the call does not know the type, so that the call reaches a method of the program.
-/
theorem Names.callees_packageVariable_writer : ∃ p item j bs call,
    Program.ofSources (fun _ => none) writerSources = .ok p ∧ p.items[0]? = some item ∧
    item.Declares p (p.file item.file).package "w" ∧
    (∀ j ∈ p.items.drop 1, ¬ j.Declares p (p.file item.file).package "w") ∧
    item.Typed p "w" "io.Writer" ∧ p.typeTarget item.file "io.Writer" = .foreign ∧
    (j, bs) ∈ (ofProgram p).2 ∧ call.methodCall? (p.file j.file).text = some ("w", "Write") ∧
    (ofProgram p).1.callees j.file bs call = [3] ∧
    (ofProgram p).1.ReadsType item.file j.file "io.Writer" "Write" [3] := by
  have hchecked : ∃ p, Program.ofSources (fun _ => none) writerSources = .ok p ∧
      ((p.items[0]?).any fun item =>
        !item.isFunction && (declaredNames (p.file item.file).text item.node).contains "w" &&
        (p.items.drop 1).all (·.isFunction) &&
        item.occurrences.all (fun o => decide (o.node.kind = .varSpec) &&
          o.declared? (p.file item.file).text == some "io.Writer" &&
          (o.literal? (p.file item.file).text).isNone) &&
        p.typeTarget item.file "io.Writer" == .foreign &&
        (ofProgram p).2.any fun s =>
          (p.file s.1.file).package == (p.file item.file).package &&
          s.1.occurrences.all (fun o => o.name (p.file s.1.file).text != "w") &&
          s.1.node.backward.any fun call =>
            call.methodCall? (p.file s.1.file).text == some ("w", "Write") &&
            (ofProgram p).1.callees s.1.file s.2 call == [3]) = true :=
    Program.ofSources_pair (by decide +kernel)
  obtain ⟨p, hp, hchecked⟩ := hchecked
  simp only [Option.any_eq_true, Bool.and_eq_true, List.any_eq_true, List.all_eq_true,
    beq_iff_eq, bne_iff_ne,
    List.contains_eq_mem, decide_eq_true_eq, Bool.not_eq_true', Option.isNone_iff_eq_none,
    Prod.exists] at hchecked
  obtain ⟨item, hi, ⟨⟨⟨⟨hfunction, hname⟩, hlast⟩, htyped⟩, hforeign⟩, j, bs, hscan,
      ⟨hpackage, hunbound⟩, call, -,
    hcall, hcallees⟩ := hchecked
  have hdeclares : item.Declares p (p.file item.file).package "w" := ⟨hfunction, rfl, hname⟩
  have hlater : ∀ j ∈ p.items.drop 1, ¬ j.Declares p (p.file item.file).package "w" := by
    intro j hj h
    cases h.isFunction.symm.trans (hlast j hj)
  have htyped : item.Typed p "w" "io.Writer" := fun o ho _ =>
    ⟨.inl (htyped o ho).1.1, (htyped o ho).1.2, (htyped o ho).2⟩
  obtain ⟨value, -, hvalue, hcalls⟩ := callees_packageVariable hi hdeclares (by decide) hlater
  have hreads := (hcalls j bs call "Write" hscan hpackage
    (fun o ho hname => absurd hname (hunbound o ho)) hcall).2 _ (hvalue _ htyped)
  rw [hcallees] at hreads
  exact ⟨p, item, j, bs, call, hp, hi, hdeclares, hlater, htyped, hforeign, hscan, hcall,
    hcallees, hreads⟩

end ParamThreading
