import Mathlib.Data.Set.Function
import ParamThreading.Proofs.CalledNames
import ParamThreading.Proofs.TargetKeys

/-!
# The index of functions

Every function in the text of a program has one entry in the graph, which tells what the function is
and is found again by the place where the function starts. Nothing else is found, and no place is
ever recorded twice.

* `Node.NamesType`, `Node.Receives`  the name of a type, and the receiver of a method;
* `Program.Describes`  what a function in the text is;
* `Program.WellFormed.eq_of_start`  functions that start at one offset are the same;
* `CallGraph.functionFor?_eq_some_iff`  what is found for a node is its own entry;
* `CallGraph.build_indexes`  the functions in the text and the entries of the graph are the same,
  one for one.
-/

namespace ParamThreading

/-! ## receivers -/

namespace Node

variable {text : String} {n : Node}

/-- A type that has a name: the name alone, or with pointers, parentheses or type arguments around
it. -/
inductive NamesType (text : String) : Node → String → Prop where
  | plain {n : Node} : n.kind = .typeIdentifier ∨ n.kind = .qualifiedType →
    NamesType text n (n.text text)
  | wrapped {n c : Node} {name : String} : n.kind = .pointerType ∨ n.kind = .parenthesizedType →
      n.codeChildren.head? = some c → NamesType text c name → NamesType text n name
  | generic {n c : Node} {name : String} : n.kind = .genericType → n.child? .type = some c →
      NamesType text c name → NamesType text n name

theorem reachRole_eq (step : Node → Option Way) (role : Role) (cs : List Node) :
    reachRole step role cs = (cs.find? (·.role == some role)).bind (reach? step) := by
  induction cs with
  | nil => rfl
  | cons c cs ih =>
    rw [reachRole, ih, List.find?_cons]
    cases c.role == some role <;> rfl

theorem reach?_of_role {step : Node → Option Way} {role : Role} (h : step n = some (.role role)) :
    n.reach? step = (n.child? role).bind (reach? step) := by
  obtain ⟨k, r, a, b, cs⟩ := n
  rw [reach?, h]
  exact reachRole_eq step role cs

theorem namedType?_eq_some {name : String} :
    namedType? text n = some name ↔ n.NamesType text name := by
  induction n using induct generalizing name with
  | step n ih =>
    by_cases hwrapped : n.kind = .pointerType ∨ n.kind = .parenthesizedType
    · have hstep : typeNameStep n = some .first := by
        rcases hwrapped with hk | hk <;> simp [typeNameStep, hk]
      rw [namedType?, reach?_of_first hstep, Option.bind_assoc, Option.bind_eq_some_iff]
      constructor
      · rintro ⟨c, hc, hname⟩
        have hmem := (List.mem_filter.mp (List.mem_of_mem_head? hc)).1
        exact .wrapped hwrapped hc ((ih c hmem).mp hname)
      · intro h
        cases h with
        | plain hk => rcases hwrapped with hk' | hk' <;> simp [hk'] at hk
        | @wrapped _ c _ _ hc hname =>
          have hmem := (List.mem_filter.mp (List.mem_of_mem_head? hc)).1
          exact ⟨c, hc, (ih c hmem).mpr hname⟩
        | generic hk => rcases hwrapped with hk' | hk' <;> simp [hk'] at hk
    by_cases hgeneric : n.kind = .genericType
    · have hstep : typeNameStep n = some (.role .type) := by simp [typeNameStep, hgeneric]
      rw [namedType?, reach?_of_role hstep, Option.bind_assoc, Option.bind_eq_some_iff]
      constructor
      · rintro ⟨c, hc, hname⟩
        exact .generic hgeneric hc ((ih c (List.mem_of_find?_eq_some hc)).mp hname)
      · intro h
        cases h with
        | plain hk => simp [hgeneric] at hk
        | wrapped hk => exact absurd hk hwrapped
        | @generic _ c _ _ hc hname =>
          exact ⟨c, hc, (ih c (List.mem_of_find?_eq_some hc)).mpr hname⟩
    · have hstep : typeNameStep n = none := by
        unfold typeNameStep
        split <;> simp_all
      rw [namedType?, reach?_of_none hstep, Option.bind_some]
      constructor
      · intro h
        split at h
        case h_1 hk =>
          cases h
          exact .plain (.inl hk)
        case h_2 hk =>
          cases h
          exact .plain (.inr hk)
        case h_3 => cases h
      · intro h
        cases h with
        | plain hk => rcases hk with hk | hk <;> simp [hk]
        | wrapped hk => exact absurd hk hwrapped
        | generic hk => exact absurd hk hgeneric

def ReceivesBy (text : String) (method : Node) (name : String) : Prop :=
  ∃ list receiver type, method.child? .receiver = some list ∧
    list.codeChildren.head? = some receiver ∧
    receiver.child? .type = some type ∧ type.NamesType text name

/-- The receiver of a method: the name of the type of the first one, nothing if this has no name. -/
def Receives (text : String) (method : Node) (name : String) : Prop :=
  method.ReceivesBy text name ∨ name = "" ∧ ∀ other, ¬ method.ReceivesBy text other

theorem receives_receiverType (text : String) (method : Node) :
    method.Receives text (receiverType text method) := by
  generalize hfound :
    ((method.child? .receiver).bind fun list => list.codeChildren.head?.bind fun receiver =>
    (receiver.child? .type).bind (namedType? text)) = found
  have hname : ∀ name, found = some name ↔ method.ReceivesBy text name := by
    intro name
    rw [← hfound]
    simp [ReceivesBy, Option.bind_eq_some_iff, namedType?_eq_some]
  have htype : receiverType text method = found.getD "" := by
    rw [← hfound]
    rfl
  rw [htype]
  cases found with
  | none => exact .inr ⟨rfl, fun other h => by cases (hname other).mpr h⟩
  | some name => exact .inl ((hname name).mp rfl)

end Node

/-! ## functions in the text -/

namespace Program

variable {p : Program} {file : FileId} {n : Node}

/-- What a function in the text is: a function with its name, a method with its name and receiver,
or a literal, which lies in the declaration of a function or method or elsewhere. -/
inductive Describes (p : Program) (file : FileId) (n : Node) : FunctionKind → Prop where
  | function {name : String} : n.kind = .functionDeclaration →
    n.textIn? .name (p.file file).text = some name →
      Describes p file n (.declared (p.file file).package file name)
  | method {receiver name : String} : n.kind = .methodDeclaration →
      n.textIn? .name (p.file file).text = some name → n.Receives (p.file file).text receiver →
      Describes p file n (.method (p.file file).package file receiver name)
  | literal {within : Bool} : n.kind = .funcLiteral →
      (within = true ↔ ∃ d ∈ (p.file file).tree.everything, d.isDeclaration = true ∧
        n ∈ d.everything) →
      Describes p file n (.literal (p.file file).package file within)

theorem declares_of_mem (hp : p.WellFormed) (hfile : file < p.files.length)
    (hn : n ∈ (p.file file).tree.everything) (hdecl : n.isDeclaration = true) :
    p.Declares ⟨file, n⟩ := by
  rcases Node.mem_everything.mp hn with rfl | ⟨c, hc, hnc⟩
  · rw [Node.isDeclaration_eq, Grammar.kind_of_parse (hp.parsed _ (file_mem hfile))] at hdecl
    cases hdecl
  · cases (hp.tree _ (file_mem hfile)).top c hc n hnc hdecl
    exact ⟨hfile, hc, hdecl⟩

theorem Declares.holdsCode (h : p.Declares ⟨file, n⟩) : p.HoldsCode file n := by
  have hdecl : n.isDeclaration = true := h.isDeclaration
  simp only [Node.isDeclaration, Bool.or_eq_true, decide_eq_true_eq] at hdecl
  exact ⟨h.file, h.child, hdecl.imp_right .inl⟩

theorem HoldsCode.mem_everything {d : Node} (h : p.HoldsCode file d) (hn : n ∈ d.everything) :
    n ∈ (p.file file).tree.everything :=
  Node.mem_everything.mpr (.inr ⟨d, h.child, hn⟩)

/-- A literal lies in the declaration of a function or method just if it is such a declaration that
holds it. -/
theorem HoldsCode.isDeclaration_iff (hp : p.WellFormed) {d : Node} (h : p.HoldsCode file d)
    (hn : n ∈ d.everything) (hk : n.kind = .funcLiteral) : d.isDeclaration = true ↔
      ∃ d' ∈ (p.file file).tree.everything, d'.isDeclaration = true ∧ n ∈ d'.everything := by
  constructor
  · intro hdecl
    exact ⟨d, h.mem_everything (Node.self_mem_everything d), hdecl, hn⟩
  · rintro ⟨d', hd', hdecl, hn'⟩
    have hholds := (declares_of_mem hp h.loaded hd' hdecl).holdsCode
    rw [h.eq_of_mem hp hholds hn hn' (by rw [hk]; rfl)]
    exact hdecl

theorem Writes.mem_everything (h : p.Writes file n) :
    file < p.files.length ∧ n ∈ (p.file file).tree.everything := by
  cases h with
  | declaration hd => exact ⟨hd.file, hd.holdsCode.mem_everything (Node.self_mem_everything n)⟩
  | literal hd hn => exact ⟨hd.loaded, hd.mem_everything hn⟩

/-- An entry of the table stands for a function in the text, and tells what it is. -/
theorem Tabled.describes (hp : p.WellFormed) {f : FunctionNode} (h : p.Tabled f) : ∃ file n,
    f.kind.file? = some file ∧ f.node = some n ∧ p.Writes file n ∧ p.Describes file n f.kind := by
  cases h with
  | @function file d name hd hk hname =>
    exact ⟨file, d, rfl, rfl, .declaration hd, .function hk hname⟩
  | @method file d name hd hk hname =>
    exact ⟨file, d, rfl, rfl, .declaration hd, .method hk hname (Node.receives_receiverType _ d)⟩
  | @literal file d l hd hl hk =>
    exact ⟨file, l, rfl, rfl, .literal hd hl hk, .literal hk (hd.isDeclaration_iff hp hl hk)⟩

/-! ## where functions start -/

theorem exists_path_of_mem (hp : p.WellFormed) (hfile : file < p.files.length)
    (hn : n ∈ (p.file file).tree.everything) (hnamed : n.kind.isNamed = true) :
    ∃ ps, Node.Path (p.file file).tree (n :: ps) := by
  rcases Node.mem_everything.mp hn with rfl | ⟨c, hc, hnc⟩
  · exact ⟨[], .root⟩
  · have hmade := (hp.tree _ (file_mem hfile)).made c hc
    obtain ⟨ps, hps⟩ := Node.exists_path hmade hnc hnamed
    exact ⟨_, hps.trans (.child .root hc (Node.isNamed_of_mem hmade.self hnc hnamed))⟩

/-- A function starts before every node below it, since it begins with a keyword. -/
theorem WellFormed.start_lt_of_function (hp : p.WellFormed) (hfile : file < p.files.length)
    {x y c : Node}
    {ps qs : List Node} (hx : Node.Path (p.file file).tree (x :: ps)) (hfun : x.isFunction = true)
    (hps : ps ≠ []) (hc : Node.Path (p.file file).tree (c :: x :: ps))
    (hy : Node.Path (p.file file).tree (y :: qs)) (hup : (c :: x :: ps) <:+ y :: qs) :
    x.start < y.start := by
  obtain ⟨hneat, hmade, -⟩ := ((hp.tree _ (file_mem hfile)).path hx).2.2 hps
  rw [Node.isFunction_eq] at hfun
  exact Node.start_lt_of_opened hneat hmade.self (Grammar.isOpened_of_isFunction hfun)
    hc.mem_codeChildren (hy.mem_everything_of_suffix hup)

theorem WellFormed.eq_of_start (hp : p.WellFormed) (hfile : file < p.files.length) {x y : Node}
    (hx : x ∈ (p.file file).tree.everything) (hy : y ∈ (p.file file).tree.everything)
    (hxfun : x.isFunction = true) (hyfun : y.isFunction = true) (hstart : x.start = y.start) :
    x = y := by
  have hkind : ∀ {k : Kind}, Grammar.isFunction k = true → k.isNamed = true ∧ k.isSolid = true ∧
      k ≠ .sourceFile := by
    intro k
    cases k <;> decide
  have hspot : ∀ {z}, z ∈ (p.file file).tree.everything → z.isFunction = true →
      ∃ ps, Node.Path (p.file file).tree (z :: ps) ∧ ps ≠ [] ∧ z.start < z.stop := by
    intro z hz hfun
    rw [Node.isFunction_eq] at hfun
    obtain ⟨hnamed, hsolid, hne⟩ := hkind hfun
    obtain ⟨ps, hps⟩ := exists_path_of_mem hp hfile hz hnamed
    have hbelow := hp.ne_nil_of_kind hfile hps hne
    exact ⟨ps, hps, hbelow, (hp.extent hfile hps hbelow hsolid).1⟩
  obtain ⟨ps, hpath, hps, hfilled⟩ := hspot hx hxfun
  obtain ⟨qs, hpath', hqs, hfilled'⟩ := hspot hy hyfun
  by_contra hne
  refine (hp.spaced hfile).offsets_apart hpath hpath' (fun hsame => hne (List.cons.inj hsame).1)
    (fun _ => ⟨le_rfl, hfilled⟩) (fun _ => ⟨le_rfl, hfilled'⟩) (fun c hc hup => ?_)
      (fun c hc hup => ?_) hstart
  · exact (hp.start_lt_of_function hfile hpath hxfun hps hc hpath' hup).ne
  · exact (hp.start_lt_of_function hfile hpath' hyfun hqs hc hpath hup).ne'

end Program

/-! ## the functions of the graph -/

namespace CallGraph

variable {p : Program} {scope : Scope} {file : FileId} {n : Node} {id : FunctionId}

theorem IsFunctionOf.eq {g : CallGraph} {d d' : Declaration} (h : g.IsFunctionOf id d)
    (h' : g.IsFunctionOf id d') : d = d' := by
  obtain ⟨f, hf, hfile, hn⟩ := h
  obtain ⟨f', hf', hfile', hn'⟩ := h'
  cases hf.symm.trans hf'
  cases d
  cases d'
  cases hfile.symm.trans hfile'
  cases hn.symm.trans hn'
  rfl

theorem IsFunctionOf.describes (hp : p.WellFormed) (h : (build p scope).IsFunctionOf id ⟨file, n⟩) :
    p.Writes file n ∧ ∃ f, (build p scope).functions[id]? = some f ∧ f.node = some n ∧
      p.Describes file n f.kind := by
  obtain ⟨f, hf, hfile, hn⟩ := h
  have hmem := List.mem_of_getElem? hf
  rw [functions_build] at hmem
  obtain ⟨file', n', hfile', hn', hwrites, hdescribes⟩ :=
    (Program.tabled_of_mem hp hmem hfile).describes hp
  cases hfile.symm.trans hfile'
  cases hn.symm.trans hn'
  exact ⟨hwrites, f, hf, hn, hdescribes⟩

theorem IsFunctionOf.functionFor? (hp : p.WellFormed)
    (h : (build p scope).IsFunctionOf id ⟨file, n⟩) :
    (build p scope).functionFor? file n = some id := by
  obtain ⟨hfun, -⟩ := @isFunctionOf_writes p scope hp file n (h.describes hp).1
  obtain ⟨f, hf, hfile, hn⟩ := h
  rw [functions_build] at hf
  rw [CallGraph.functionFor?, if_pos hfun, functions_build]
  exact Program.functionAt?_eq hp hf hfile hn

theorem file?_of_node {f : FunctionNode} (h : f ∈ (build p scope).functions)
    (hn : f.node = some n) : ∃ file, f.kind.file? = some file := by
  rw [functions_build, Program.functions_eq] at h
  simp only [List.mem_cons, List.mem_append, List.mem_map, List.mem_flatMap, List.mem_range] at h
  rcases h with rfl | rfl | (⟨package, -, rfl⟩ | ⟨file, -, h⟩) | ⟨i, -, h⟩
  · cases hn
  · cases hn
  · cases hn
  · obtain ⟨-, -, -, -, hfile, -⟩ := Program.mem_declaredIn h
    exact ⟨file, hfile⟩
  · obtain ⟨-, -, -, rfl⟩ := Program.mem_literalsIn h
    exact ⟨i.file, rfl⟩

theorem functionFor?_eq_some_iff (hp : p.WellFormed) (hfile : file < p.files.length)
    (hn : n ∈ (p.file file).tree.everything) :
    (build p scope).functionFor? file n = some id ↔ (build p scope).IsFunctionOf id ⟨file, n⟩ := by
  refine ⟨fun h => ?_, fun h => h.functionFor? hp⟩
  unfold CallGraph.functionFor? at h
  split at h
  case isTrue hfun =>
    obtain ⟨⟨f, hf, hplace⟩, -⟩ := PlaceIndex.lookup_ofFunctions.mp h
    obtain ⟨m, hfile', hm, hstart⟩ := FunctionNode.place?_eq_some.mp hplace
    have hown : (build p scope).IsFunctionOf id ⟨file, m⟩ := ⟨f, hf, hfile', hm⟩
    have hwrites := (hown.describes hp).1
    have hfun' := (@isFunctionOf_writes p scope hp file m hwrites).1
    cases hp.eq_of_start hfile hwrites.mem_everything.2 hn hfun' hfun hstart
    exact hown
  case isFalse => cases h

theorem lookup_take (hp : p.WellFormed) {f : FunctionNode} {place : FileId × Nat}
    (hf : (build p scope).functions[id]? = some f) (hplace : f.place? = some place) :
    (PlaceIndex.ofFunctions ((build p scope).functions.take id)).lookup place = none := by
  obtain ⟨file, offset⟩ := place
  rw [functions_build] at hf ⊢
  rw [Option.eq_none_iff_forall_ne_some]
  intro earlier hearlier
  obtain ⟨⟨g, hg, hgplace⟩, -⟩ := PlaceIndex.lookup_ofFunctions.mp hearlier
  obtain ⟨hlt, hg⟩ : earlier < id ∧ p.functions[earlier]? = some g := by
    rw [List.getElem?_take] at hg
    split at hg
    · exact ⟨‹_›, hg⟩
    · cases hg
  obtain ⟨n, hfile, hn, hstart⟩ := FunctionNode.place?_eq_some.mp hplace
  obtain ⟨m, hfile', hm, hstart'⟩ := FunctionNode.place?_eq_some.mp hgplace
  have hat := Program.functionAt?_eq hp hf hfile hn
  have hat' := Program.functionAt?_eq hp hg hfile' hm
  rw [hstart] at hat
  rw [hstart', hat] at hat'
  exact hlt.ne' (Option.some.inj hat')

/-- The entries of a graph are the functions in the text of a program, one for one. -/
structure Indexes (g : CallGraph) (p : Program) : Prop where
  /-- The declarations of functions and methods, wherever they stand, are functions in the text. -/
  declarations : ∀ file n, file < p.files.length → n ∈ (p.file file).tree.everything →
    n.isDeclaration = true → p.Writes file n
  /-- Every function in the text has one entry, which tells what it is, and this is found for it. -/
  written : ∀ file n, p.Writes file n → ∃ id f, g.functions[id]? = some f ∧ f.node = some n ∧
    p.Describes file n f.kind ∧ g.functionFor? file n = some id ∧
      ∀ id', g.IsFunctionOf id' ⟨file, n⟩ → id' = id
  /-- What is found for a node of the text is its own entry. -/
  own : ∀ file n id, file < p.files.length → n ∈ (p.file file).tree.everything →
    (g.functionFor? file n = some id ↔ g.IsFunctionOf id ⟨file, n⟩)
  /-- Each entry that has a text is found for one function in the text. -/
  bijective : Set.BijOn (fun d : Declaration => g.functionFor? d.file d.node)
    {d | p.Writes d.file d.node} {found | ∃ id f, found = some id ∧ g.functions[id]? = some f ∧
      f.node.isSome = true}
  /-- When a function is recorded, nothing is recorded at its place. -/
  fresh : ∀ id f place, g.functions[id]? = some f → f.place? = some place →
    (PlaceIndex.ofFunctions (g.functions.take id)).lookup place = none

/-- The functions in the text of a program have one entry each in the graph of the program, which
has their package, file, name and receiver, and this entry is found for them. There are no other
entries with a text, and none was ever recorded over another one. -/
theorem build_indexes (hloaded : p.Loaded) (scope : Scope) : (build p scope).Indexes p := by
  have hp := hloaded.wellFormed
  have hwritten : ∀ {file n}, p.Writes file n → ∃ id, (build p scope).IsFunctionOf id ⟨file, n⟩ :=
    fun h => (isFunctionOf_writes hp h).2
  refine ⟨fun file n hfile hn hdecl => .declaration (Program.declares_of_mem hp hfile hn hdecl),
    fun file n h => ?_, fun file n id hfile hn => functionFor?_eq_some_iff hp hfile hn,
      ⟨?_, ?_, ?_⟩,
    fun id f place hf hplace => lookup_take hp hf hplace⟩
  · obtain ⟨id, hid⟩ := hwritten h
    obtain ⟨-, f, hf, hn, hdescribes⟩ := hid.describes hp
    have hfound := hid.functionFor? hp
    exact ⟨id, f, hf, hn, hdescribes, hfound, fun id' hid' =>
      Option.some.inj ((hid'.functionFor? hp).symm.trans hfound)⟩
  · intro d hd
    obtain ⟨id, f, hf, hfile, hn⟩ := hwritten hd
    exact ⟨id, f, IsFunctionOf.functionFor? hp ⟨f, hf, hfile, hn⟩, hf, by rw [hn]; rfl⟩
  · intro d hd d' hd' hsame
    obtain ⟨id, hid⟩ := hwritten hd
    obtain ⟨id', hid'⟩ := hwritten hd'
    have hids : id = id' := by
      simpa [hid.functionFor? hp, hid'.functionFor? hp] using hsame
    exact hid.eq (hids ▸ hid')
  · rintro _ ⟨id, f, rfl, hf, hnode⟩
    obtain ⟨n, hn⟩ := Option.isSome_iff_exists.mp hnode
    obtain ⟨file, hfile⟩ := file?_of_node (List.mem_of_getElem? hf) hn
    have hid : (build p scope).IsFunctionOf id ⟨file, n⟩ := ⟨f, hf, hfile, hn⟩
    exact ⟨⟨file, n⟩, (hid.describes hp).1, hid.functionFor? hp⟩

def innerLiterals : List (Path × String) :=
  [(⟨"m.go"⟩,
    "package m\n\ntype T int\n\n" ++
    "func (t *T) M() \x7b func() \x7b func() \x7b\x7d() \x7d() \x7d\n\n" ++
    "var v = func() \x7b\x7d\n")]

theorem build_indexes_inner : ∃ p, Program.ofSources (fun _ => none) innerLiterals = .ok p ∧
    (build p (Scope.ofProgram p)).functions.map (·.kind) = [.root, .testMain, .packageInit 0,
      .method 0 0 "T" "M", .literal 0 0 true, .literal 0 0 true, .literal 0 0 false] ∧
    (build p (Scope.ofProgram p)).Indexes p := by
  have hchecked : (Program.ofSources (fun _ => none) innerLiterals).toOption.any (fun p =>
      p.functions.map (·.kind) == [.root, .testMain, .packageInit 0, .method 0 0 "T" "M",
        .literal 0 0 true, .literal 0 0 true, .literal 0 0 false]) = true := by
    decide +kernel
  obtain ⟨p, hp, hchecked⟩ := any_toOption.mp hchecked
  refine ⟨p, hp, ?_, build_indexes (.sources hp) (Scope.ofProgram p)⟩
  rw [functions_build]
  exact beq_iff_eq.mp hchecked

end CallGraph

end ParamThreading
