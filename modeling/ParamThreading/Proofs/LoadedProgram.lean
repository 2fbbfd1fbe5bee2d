import ParamThreading.Proofs.Lists
import ParamThreading.Proofs.SourceTree
import ParamThreading.Sources.Loading

/-!
# Programs that were loaded

Each of their files carries the tree of its own text, and belongs to one of the packages.

* `Program.Loaded`  programs of sources in memory or on disk;
* `Program.WellFormed`  what is known of such programs;
* `Program.Loaded.wellFormed`  loaded programs are well formed.
-/

namespace ParamThreading

/-! ## parsed files -/

def ParsedFile.Genuine (f : ParsedFile) : Prop := Grammar.parse f.text = some f.tree

def ParsedFile.ofTree (path canonical : Path) (text : String) (initial : Bool) (tree : Node)
    (packageName : String) : ParsedFile where
  path := path
  canonical := canonical
  text := text
  tree := tree
  packageName := packageName
  imports := (tree.codeChildren.filter (·.kind = .importDeclaration)).flatMap (importsOf text)
  isTest := path.fileName?.any (Program.endsWith · "_test.go")
  initial := initial

theorem ParsedFile.ofText_eq_ok {path canonical : Path} {text : String} {initial : Bool}
    {f : ParsedFile} :
    ofText path canonical text initial = .ok f ↔ ∃ tree name, Grammar.parse text = some tree ∧
      packageNameOf? text tree = some name ∧ f = ofTree path canonical text initial tree name := by
  unfold ofText
  cases htree : Grammar.parse text with
  | none => exact ⟨nofun, nofun⟩
  | some tree =>
    cases hname : packageNameOf? text tree with
    | none =>
      simp only [hname]
      refine ⟨nofun, ?_⟩
      rintro ⟨_, _, ⟨⟩, hsome, -⟩
      cases hname.symm.trans hsome
    | some name =>
      simp only [hname]
      constructor
      · intro h
        cases h
        exact ⟨tree, name, rfl, hname, rfl⟩
      · rintro ⟨_, _, ⟨⟩, hsome, rfl⟩
        cases hname.symm.trans hsome
        rfl

theorem ParsedFile.genuine_ofText {path canonical : Path} {text : String} {initial : Bool}
    {f : ParsedFile} (h : ofText path canonical text initial = .ok f) : f.Genuine := by
  obtain ⟨tree, name, htree, -, rfl⟩ := ofText_eq_ok.mp h
  exact htree

namespace Loading

variable {d : Disk} {w : Walker} {m : Module}

def OfTexts (P : ParsedFile → Prop) : Prop :=
  ∀ {path canonical text initial f}, ParsedFile.ofText path canonical text initial = .ok f → P f

theorem forall_parseAll {P : ParsedFile → Prop} (hP : OfTexts P) {initial : Bool}
    {paths : List Path}
    {fs : List ParsedFile} (h : parseAll d initial paths = .ok fs) : ∀ f ∈ fs, P f := by
  intro f hf
  obtain ⟨p, -, hp⟩ := (mem_mapM h).mp hf
  unfold parse at hp
  split at hp
  · cases hp
  · exact hP hp

def importPaths (fs : List ParsedFile) : List String := fs.flatMap fun f => f.imports.map (·.path)

def Progress.adding (s : Progress) (directory : List Component) (files : List ParsedFile) :
    Progress :=
  ⟨s.directories ++ [directory], s.files ++ files⟩

/-- An import is passed over if it leads to no directory of the module or to one that is known;
otherwise the files of its directory are read. -/
theorem dependency_cases (d : Disk) (w : Walker) (m : Module) (s : Progress) (importPath : String) :
    (dependency d w m s importPath = .ok (s, []) ∧ ∀ dir, m.directoryOf? importPath = some dir →
      d.isDirectory dir = true → (d.canonicalOrSelf dir).components ∈ s.directories) ∨
    ∃ dir, m.directoryOf? importPath = some dir ∧ d.isDirectory dir = true ∧
      (d.canonicalOrSelf dir).components ∉ s.directories ∧
      dependency d w m s importPath = (parseAll d false (w.goFiles d dir)).map fun files =>
        (s.adding (d.canonicalOrSelf dir).components files, importPaths files) := by
  unfold dependency
  cases hdir : m.directoryOf? importPath with
  | none => exact .inl ⟨rfl, nofun⟩
  | some dir =>
    dsimp only
    split
    case isTrue hknown =>
      refine .inl ⟨rfl, ?_⟩
      rintro _ ⟨⟩ hdirectory
      simpa [hdirectory] using hknown
    case isFalse hnew =>
      simp only [Bool.or_eq_true, Bool.not_eq_true', not_or, Bool.not_eq_false,
        List.contains_iff_mem] at hnew
      refine .inr ⟨dir, rfl, hnew.1, hnew.2, ?_⟩
      cases parseAll d false (w.goFiles d dir) <;> rfl

theorem dependency_eq_ok {s s' : Progress} {importPath : String} {found : List String}
    (h : dependency d w m s importPath = .ok (s', found)) : (s' = s ∧ found = []) ∨
    ∃ dir files, m.directoryOf? importPath = some dir ∧ d.isDirectory dir = true ∧
      (d.canonicalOrSelf dir).components ∉ s.directories ∧
      parseAll d false (w.goFiles d dir) = .ok files ∧
      s' = s.adding (d.canonicalOrSelf dir).components files ∧ found = importPaths files := by
  rcases dependency_cases d w m s importPath with ⟨hok, -⟩ | ⟨dir, hdir, hdirectory, hnew, heq⟩
  · cases hok.symm.trans h
    exact .inl ⟨rfl, rfl⟩
  · rw [h] at heq
    cases hfiles : parseAll d false (w.goFiles d dir) with
    | error e =>
      rw [hfiles] at heq
      cases heq
    | ok files =>
      rw [hfiles] at heq
      cases heq
      exact .inr ⟨dir, files, hdir, hdirectory, hnew, hfiles, rfl, rfl⟩

theorem forall_dependency {P : ParsedFile → Prop} (hP : OfTexts P) {s s' : Progress} {path : String}
    {found : List String} (h : dependency d w m s path = .ok (s', found))
    (hs : ∀ f ∈ s.files, P f) :
    ∀ f ∈ s'.files, P f := by
  rcases dependency_eq_ok h with ⟨rfl, -⟩ | ⟨dir, files, -, -, -, hfiles, rfl, -⟩
  · exact hs
  · intro f hf
    exact (List.mem_append.mp hf).elim (hs f) (forall_parseAll hP hfiles f)

/-- What every import preserves holds after a round. -/
theorem round_invariant {P : Progress → Prop}
    (hstep : ∀ {s s' path found}, dependency d w m s path = .ok (s', found) → P s → P s')
    {paths : List String} {s s' : Progress} {found : List String}
    (h : round d w m s paths = .ok (s', found)) (hs : P s) : P s' := by
  induction paths generalizing s found with
  | nil => cases h; exact hs
  | cons path paths ih =>
    obtain ⟨⟨s₁, found₁⟩, h₁, h⟩ := bind_eq_ok.mp h
    obtain ⟨⟨s₂, found₂⟩, h₂, h⟩ := bind_eq_ok.mp h
    cases h
    exact ih h₂ (hstep h₁ hs)

theorem rounds_invariant {P : Progress → Prop}
    (hstep : ∀ {s s' path found}, dependency d w m s path = .ok (s', found) → P s → P s')
    {n : Nat} {paths : List String} {s s' : Progress} (h : rounds d w m n s paths = .ok s')
    (hs : P s) : P s' := by
  induction n generalizing s paths with
  | zero => cases h; exact hs
  | succ n ih =>
    cases paths with
    | nil => cases h; exact hs
    | cons path paths =>
      obtain ⟨⟨s₁, found⟩, h₁, h⟩ := bind_eq_ok.mp h
      exact ih h (round_invariant hstep h₁ hs)

theorem forall_dependencies {P : ParsedFile → Prop} (hP : OfTexts P) {parsed fs : List ParsedFile}
    (h : dependencies d w m parsed = .ok fs) : ∀ f ∈ fs, P f := by
  obtain ⟨s, hs, h⟩ := bind_eq_ok.mp h
  cases h
  exact rounds_invariant (P := fun s => ∀ f ∈ s.files, P f) (forall_dependency hP) hs nofun

end Loading

/-! ## programs -/

namespace Program

/-- Files carry the trees of their texts and belong to packages. -/
structure WellFormed (p : Program) : Prop where
  parsed : ∀ f ∈ p.files, Grammar.parse f.text = some f.tree
  package : ∀ f ∈ p.files, f.package < p.packages.length

theorem WellFormed.tree {p : Program} (hp : p.WellFormed) (f : SourceFile) (hf : f ∈ p.files) :
    SourceTree f.text f.tree :=
  Grammar.parse_sourceTree (hp.parsed f hf)

theorem wellFormed_addGroup {base : List Component} {module : Option String}
    {parsed : List ParsedFile} {p : Program} (hparsed : ∀ f ∈ parsed, f.Genuine)
    (hp : p.WellFormed) (group : List Component × String) :
    (addGroup base module parsed p group).WellFormed := by
  have hlength : (addGroup base module parsed p group).packages.length = p.packages.length + 1 :=
    List.length_append
  constructor
  · intro f hf
    rcases List.mem_append.mp hf with hf | hf
    · exact hp.parsed f hf
    · obtain ⟨g, hg, rfl⟩ := List.mem_map.mp hf
      exact hparsed g (List.mem_filter.mp (List.mem_mergeSort.mp hg)).1
  · intro f hf
    rw [hlength]
    rcases List.mem_append.mp hf with hf | hf
    · exact Nat.lt_succ_of_lt (hp.package f hf)
    · obtain ⟨g, -, rfl⟩ := List.mem_map.mp hf
      exact Nat.lt_succ_self _

theorem wellFormed_assemble {parsed : List ParsedFile} (hparsed : ∀ f ∈ parsed, f.Genuine)
    (base : List Component) (module : Option String) :
    (assemble parsed base module).WellFormed := by
  unfold assemble
  generalize (parsed.map (·.group)).eraseDups.mergeSort groupLe = groups
  have hempty : WellFormed ⟨[], []⟩ := ⟨nofun, nofun⟩
  generalize (⟨[], []⟩ : Program) = p at hempty ⊢
  induction groups generalizing p with
  | nil => exact hempty
  | cons group groups ih => exact ih _ (wellFormed_addGroup hparsed hempty group)

/-- A program of sources in memory, or of targets on disk. -/
inductive Loaded (p : Program) : Prop where
  | sources {onDisk : Path → Option Path} {sources : List (Path × String)} :
      ofSources onDisk sources = .ok p → Loaded p
  | targets {d : Disk} {targets : List String} {options : LoadOptions} :
      load d targets options = .ok p → Loaded p

/-- A program on disk is made of the files that its targets name and of those that these depend on.
-/
theorem load_eq_ok {d : Disk} {targets : List String} {options : LoadOptions} {p : Program}
    (h : load d targets options = .ok p) : ∃ files parsed more base module,
      Loading.parseAll d true files = .ok parsed ∧
      (more = [] ∨ ∃ w m, Loading.walker options false = .ok w ∧
        Loading.dependencies d w m parsed = .ok more) ∧
      p = assemble (parsed ++ more) base module := by
  unfold load at h
  dsimp only at h
  generalize (if targets.isEmpty then ["."] else targets) = targets at h
  obtain ⟨w, -, h⟩ := bind_eq_ok.mp h
  obtain ⟨files, -, h⟩ := bind_eq_ok.mp h
  split at h
  · cases h
  · obtain ⟨parsed, hparsed, h⟩ := bind_eq_ok.mp h
    split at h
    · cases h
      exact ⟨_, parsed, [], _, _, hparsed, .inl rfl, by rw [List.append_nil]⟩
    · split at h
      · obtain ⟨w', hw', h⟩ := bind_eq_ok.mp h
        obtain ⟨more, hmore, h⟩ := bind_eq_ok.mp h
        cases h
        exact ⟨_, parsed, more, _, _, hparsed, .inr ⟨w', _, hw', hmore⟩, rfl⟩
      · cases h
        exact ⟨_, parsed, [], _, _, hparsed, .inl rfl, by rw [List.append_nil]⟩

theorem Loaded.exists_assemble {P : ParsedFile → Prop} (hP : Loading.OfTexts P) {p : Program}
    (h : p.Loaded) :
    ∃ parsed base module, (∀ f ∈ parsed, P f) ∧ p = assemble parsed base module := by
  cases h with
  | sources h =>
    obtain ⟨parsed, hparsed, h⟩ := bind_eq_ok.mp h
    cases h
    refine ⟨parsed, [], none, fun f hf => ?_, rfl⟩
    obtain ⟨_, -, hx⟩ := (mem_mapM hparsed).mp hf
    exact hP hx
  | targets h =>
    obtain ⟨files, parsed, more, base, module, hparsed, hmore, rfl⟩ := load_eq_ok h
    refine ⟨parsed ++ more, base, module, fun f hf => ?_, rfl⟩
    rcases List.mem_append.mp hf with hf | hf
    · exact Loading.forall_parseAll hP hparsed f hf
    · rcases hmore with rfl | ⟨w, m, -, hmore⟩
      · cases hf
      · exact Loading.forall_dependencies hP hmore f hf

theorem Loaded.wellFormed {p : Program} (h : p.Loaded) : p.WellFormed := by
  obtain ⟨parsed, base, module, hparsed, rfl⟩ := h.exists_assemble ParsedFile.genuine_ofText
  exact wellFormed_assemble hparsed base module

theorem file_mem {p : Program} {id : FileId} (h : id < p.files.length) : p.file id ∈ p.files := by
  unfold file
  rw [List.getElem?_eq_getElem h]
  exact List.getElem_mem h

end Program

end ParamThreading
