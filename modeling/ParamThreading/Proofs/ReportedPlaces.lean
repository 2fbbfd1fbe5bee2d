import ParamThreading.Proofs.LinePositions
import ParamThreading.Proofs.LoadedFiles
import ParamThreading.Proofs.TargetKeys
import ParamThreading.Proofs.Tolerance

/-!
# Where the targets of a request are reported

A target is reported by the line and column where it starts. Parameter lists have places of their
own; calls in a chain start at one offset and so have a common one.

* `Program.Loaded.lines_eq`  the files of a program carry the line breaks of their texts;
* `Address.reported_eq_iff`  addresses are reported at one place just if they start at one offset;
* `Program.WellFormed.inCallee_of_start`  calls that start at one offset stand in a chain;
* `Frontier.ReportedApart`  which targets are told apart;
* `LineIndex.position_orders`  lines and columns are found as by a walk, come in the order of the
  text, and tell targets apart.
-/

namespace ParamThreading

/-! ## places in files -/

namespace Program

variable {p : Program} {file : FileId}

theorem Loaded.lines_eq (h : p.Loaded) (hfile : file < p.files.length) :
    (p.file file).lines = LineIndex.ofBytes (p.file file).text.toUTF8 := by
  obtain ⟨parsed, base, module, -, rfl⟩ := h.exists_assemble (P := fun _ => True) fun _ => trivial
  have hlines : (assemble parsed base module).files.map (·.lines) =
      ((Program.groups parsed).flatMap (membersOf parsed)).map (LineIndex.ofText ·.text) :=
    map_files_assemble (fun _ _ => rfl) parsed base module
  have htexts : (assemble parsed base module).files.map (LineIndex.ofText ·.text) =
      ((Program.groups parsed).flatMap (membersOf parsed)).map (LineIndex.ofText ·.text) :=
    map_files_assemble (fun _ _ => rfl) parsed base module
  exact List.map_inj_left.mp (hlines.trans htexts.symm) _ (file_mem hfile)

end Program

namespace Address

variable {p : Program} {a b : Address}

def reported (p : Program) (a : Address) : LineColumn := (PlannedEdit.ofAddress p a).position

/-- Addresses are reported at one place just if they start at one offset. -/
theorem reported_eq_iff (hp : p.Loaded) (hloaded : a.file < p.files.length)
    (hfile : a.file = b.file)
    (ha : a.start ≤ (p.file a.file).text.utf8ByteSize)
    (hb : b.start ≤ (p.file a.file).text.utf8ByteSize) :
    a.reported p = b.reported p ↔ a.start = b.start := by
  have hreported : ∀ c : Address, c.file = a.file →
      c.reported p = (LineIndex.ofBytes (p.file a.file).text.toUTF8).position c.start := by
    intro c hc
    rw [← hp.lines_eq hloaded, ← hc]
    rfl
  rw [hreported a rfl, hreported b hfile.symm]
  exact (LineIndex.injOn_position _).eq_iff ha hb

end Address

/-! ## calls in a chain -/

def Node.InCallee (n call : Node) : Prop := ∃ f, call.child? .function = some f ∧ n ∈ f.everything

namespace Program.WellFormed

variable {p : Program} {file : FileId} {x y c f : Node} {ps qs : List Node}

/-- What begins where a call begins is its callee. -/
theorem eq_callee_of_start_le (hp : p.WellFormed) (hfile : file < p.files.length)
    (hx : Node.Path (p.file file).tree (x :: ps)) (hk : x.kind = .callExpression)
    (hf : x.child? .function = some f) (hc : c ∈ x.codeChildren) (hle : c.start ≤ x.start) :
    c = f := by
  obtain ⟨hneat, hmade, -⟩ :=
    ((hp.tree _ (Program.file_mem hfile)).path hx).2.2
      (hp.ne_nil_of_kind hfile hx (by rw [hk]; decide))
  obtain ⟨f', args, hshape⟩ := Grammar.callShape hmade.self hk
  obtain ⟨between, hchildren, -⟩ := hshape.children
  have hfirst : x.child? .function = some f' := by simp [Node.child?, hchildren, hshape.function]
  cases hf.symm.trans hfirst
  obtain ⟨hc, hnamed⟩ := List.mem_filter.mp hc
  have hmem : f ∈ x.children := by rw [hchildren]; exact List.mem_cons_self
  have hordered := hneat.self.ordered
  rw [hchildren] at hordered hc
  rcases List.mem_cons.mp hc with rfl | hc
  · rfl
  · have hbefore := ((List.pairwise_cons.mp hordered).1 c hc).2.2 hnamed
    have hfilled := (hneat.child hmem).self.filled hshape.solid
    have hwithin := (hneat.self.within f hmem).1
    omega

theorem inCallee_of_suffix (hp : p.WellFormed) (hfile : file < p.files.length)
    (hx : Node.Path (p.file file).tree (x :: ps)) (hk : x.kind = .callExpression)
    (hc : Node.Path (p.file file).tree (c :: x :: ps)) (hy : Node.Path (p.file file).tree (y :: qs))
    (hup : (c :: x :: ps) <:+ y :: qs) (hstart : x.start = y.start) : y.InCallee x := by
  obtain ⟨f, -, hf, -⟩ := (hp.spaced hfile).call x ps hx hk
  have hle := ((hp.spaced hfile).covers hc (List.cons_ne_nil x ps) hy hup).1
  have hsame := hp.eq_callee_of_start_le hfile hx hk hf hc.mem_codeChildren (by omega)
  refine ⟨f, hf, ?_⟩
  rw [← hsame]
  exact hy.mem_everything_of_suffix hup

theorem extent_call (hp : p.WellFormed) (hfile : file < p.files.length)
    (hx : Node.Path (p.file file).tree (x :: ps)) (hk : x.kind = .callExpression) :
    x.start < x.stop ∧ x.stop ≤ (p.file file).text.utf8ByteSize :=
  hp.extent hfile hx (hp.ne_nil_of_kind hfile hx (by rw [hk]; decide)) (by rw [hk]; rfl)

theorem inCallee_of_start (hp : p.WellFormed) (hfile : file < p.files.length)
    (hx : Node.Path (p.file file).tree (x :: ps)) (hy : Node.Path (p.file file).tree (y :: qs))
    (hxk : x.kind = .callExpression) (hyk : y.kind = .callExpression) (hne : x :: ps ≠ y :: qs)
    (hstart : x.start = y.start) : x.InCallee y ∨ y.InCallee x := by
  have hextent := hp.extent_call hfile hx hxk
  have hextent' := hp.extent_call hfile hy hyk
  by_contra hnot
  refine (hp.spaced hfile).offsets_apart hx hy hne (fun _ => ⟨le_rfl, hextent.1⟩)
    (fun _ => ⟨le_rfl, hextent'.1⟩) (fun c hc hup => ?_) (fun c hc hup => ?_) hstart
  · exact absurd (.inr (hp.inCallee_of_suffix hfile hx hxk hc hy hup hstart)) hnot
  · exact absurd (.inl (hp.inCallee_of_suffix hfile hy hyk hc hx hup hstart.symm)) hnot

end Program.WellFormed

/-! ## parameter lists -/

section
variable {p : Program} {d : Declaration} {a b : Address}

theorem Signs.exists_path (hd : p.Declares d) (h : Signs p d a) : ∃ params,
    a.start = params.start ∧ params.kind = .parameterList ∧
      Node.Path (p.file a.file).tree [params, d.node, (p.file a.file).tree] := by
  obtain ⟨params, hshape, rfl⟩ := h
  have hmem : params ∈ d.node.children := List.mem_of_find?_eq_some hshape.parameters
  refine ⟨params, rfl, hshape.list, .child (.child .root hd.child ?_) hmem ?_⟩
  · exact Node.isNamed_of_isDeclaration hd.isDeclaration
  · rw [hshape.list]
    rfl

theorem Signs.start_ne (hp : p.WellFormed) (hd : p.Declares d) (h : Signs p d a) {y : Node}
    {qs : List Node}
    (hy : Node.Path (p.file a.file).tree (y :: qs)) (hyk : y.kind = .callExpression) :
    a.start ≠ y.start := by
  have hfile : a.file < p.files.length := by
    rw [h.file]
    exact hd.file
  obtain ⟨params, hstart, hk, hpath⟩ := h.exists_path hd
  rw [hstart]
  have hspaced := hp.spaced hfile
  have hextent := hp.extent hfile hpath (List.cons_ne_nil _ _) (by rw [hk]; rfl)
  have hextent' := hp.extent_call hfile hy hyk
  have hne : [params, d.node, (p.file a.file).tree] ≠ y :: qs := by
    rintro hsame
    cases hsame
    cases hk.symm.trans hyk
  refine hspaced.offsets_apart hpath hy hne (fun _ => ⟨le_rfl, hextent.1⟩)
    (fun _ => ⟨le_rfl, hextent'.1⟩) (fun c hc hup => ?_) fun c hc hup => ?_
  · have hlt := hspaced.list _ _ hpath hk c hc.mem_codeChildren
    have hle := hspaced.covers hc (List.cons_ne_nil _ _) hy hup
    omega
  · -- the parameter list stands in the declaration and in no call
    rcases List.suffix_cons_iff.mp hup with hsame | hup
    · cases hsame
      have hdecl := hd.isDeclaration
      rw [Node.isDeclaration_eq, hyk] at hdecl
      cases hdecl
    · have hlength := hup.length_le
      cases qs with
      | nil => exact absurd rfl (hp.ne_nil_of_kind hfile hy (by rw [hyk]; decide))
      | cons q qs => simp at hlength

end

/-! ## the targets of a request -/

/-- Calls that begin at one offset, of which one stands in the callee of the other. -/
def Address.Chained (a b : Address) : Prop :=
  a.start = b.start ∧ ∃ x y, a.node? = some x ∧ b.node? = some y ∧ (x.InCallee y ∨ y.InCallee x)

/-- Targets of one file are reported at different places, unless they are calls in a chain. -/
structure Frontier.ReportedApart (f : Frontier) (p : Program) : Prop where
  signatures : f.signatures.Pairwise fun a b => a.file = b.file → a.reported p ≠ b.reported p
  signatureCalls : ∀ a ∈ f.signatures, ∀ b ∈ f.callSites, a.file = b.file →
    a.reported p ≠ b.reported p
  callSites : f.callSites.Pairwise fun a b => a.file = b.file →
    (a.reported p = b.reported p ↔ a.Chained b)

section
variable {p : Program} {onDisk : Path → Option Path} {request : Request} {frontier : Frontier}

/-- The targets of a request: parameter lists and calls of the program, each once, and each at its
beginning. -/
theorem plan_targets (hloaded : p.Loaded) (hplan : plan p onDisk request = .ok frontier) :
    frontier.Proper p ∧ ∀ a ∈ frontier.callSites, a.AtCall p ∧ ∃ n, a.node? = some n ∧
      a.start = n.start := by
  have hp := hloaded.wellFormed
  obtain ⟨hroots, d, hd⟩ := plan_selects hp hplan
  obtain ⟨frontier', hplan', hproper, hholds⟩ := plan_proper hloaded hroots hd
  cases hplan.symm.trans hplan'
  refine ⟨hproper, fun a ha => ?_⟩
  obtain ⟨d', caller, site, -, hcalls, hresolve⟩ := hholds.callSites a ha
  obtain ⟨a', list, hresolve', -, haddress⟩ := hcalls.address hp
  cases hresolve.symm.trans hresolve'
  obtain ⟨-, hstart, -, hpath⟩ := eq_of_resolveRange hresolve
  obtain ⟨site', list', haddress', -, hnode, -⟩ := hproper.callSites a ha
  refine ⟨⟨?_, hpath ▸ Node.path_enclosing .., site.node, haddress.node, haddress.call⟩, site.node,
    haddress.node, hstart⟩
  rw [haddress'.file]
  exact hnode.loaded

theorem Frontier.Proper.start_le (hp : p.WellFormed) (h : frontier.Proper p) {a : Address}
    (ha : a ∈ frontier.signatures) :
    a.file < p.files.length ∧ a.start ≤ (p.file a.file).text.utf8ByteSize := by
  obtain ⟨d, hd, hsigns⟩ := h.signatures a ha
  have hfile : a.file < p.files.length := by
    rw [hsigns.file]
    exact hd.file
  obtain ⟨params, hstart, hk, hpath⟩ := hsigns.exists_path hd
  have hextent := hp.extent hfile hpath (List.cons_ne_nil _ _) (by rw [hk]; rfl)
  exact ⟨hfile, by omega⟩

theorem Address.AtCall.exists_start (hp : p.WellFormed) {a : Address} (ha : a.AtCall p)
    (hstart : ∃ n, a.node? = some n ∧ a.start = n.start) : ∃ n ps, a.path = n :: ps ∧
      n.kind = .callExpression ∧ a.start = n.start ∧
        a.start ≤ (p.file a.file).text.utf8ByteSize := by
  obtain ⟨n, hn, hk⟩ := ha.call
  obtain ⟨n', hn', hstart⟩ := hstart
  cases hn.symm.trans hn'
  obtain ⟨ps, hps⟩ := Address.exists_path hn
  have hpath := ha.path
  rw [hps] at hpath
  have hextent := hp.extent_call ha.loaded hpath hk
  exact ⟨n, ps, hps, hk, hstart, by omega⟩

theorem Frontier.Proper.signatures_reported (hloaded : p.Loaded) (h : frontier.Proper p) :
    frontier.signatures.Pairwise fun a b => a.file = b.file → a.reported p ≠ b.reported p := by
  have hp := hloaded.wellFormed
  have hkeys : frontier.signatures.Pairwise fun a b => a.key ≠ b.key :=
    List.pairwise_map.mp h.signaturesOnce
  refine hkeys.imp_of_mem fun {a b} ha hb hne hfile hsame => hne ?_
  obtain ⟨hloaded', hle⟩ := h.start_le hp ha
  obtain ⟨-, hle'⟩ := h.start_le hp hb
  rw [← hfile] at hle'
  rw [Address.reported_eq_iff hloaded hloaded' hfile hle hle'] at hsame
  rw [Address.key, Address.key, hfile, hsame]

/-- Two calls of a request are reported at one place just if they stand in a chain. -/
theorem Address.AtCall.reported_eq_iff (hloaded : p.Loaded) {a b : Address} (ha : a.AtCall p)
    (hb : b.AtCall p)
    (hstart : ∃ n, a.node? = some n ∧ a.start = n.start)
    (hstart' : ∃ n, b.node? = some n ∧ b.start = n.start)
    (hne : a.callKey ≠ b.callKey) (hfile : a.file = b.file) :
    a.reported p = b.reported p ↔ a.Chained b := by
  have hp := hloaded.wellFormed
  obtain ⟨x, ps, hpath, hxk, hx, hle⟩ := ha.exists_start hp hstart
  obtain ⟨y, qs, hpath', hyk, hy, hle'⟩ := hb.exists_start hp hstart'
  rw [← hfile] at hle'
  rw [Address.reported_eq_iff hloaded ha.loaded hfile hle hle']
  refine ⟨fun hsame => ⟨hsame, x, y, ?_, ?_, ?_⟩, And.left⟩
  · rw [Address.node?, hpath, List.head?_cons]
  · rw [Address.node?, hpath', List.head?_cons]
  · have hup := ha.path
    have hup' := hb.path
    rw [hpath] at hup
    rw [hpath', ← hfile] at hup'
    refine hp.inCallee_of_start ha.loaded hup hup' hxk hyk (fun hpaths => hne ?_) (by omega)
    rw [ha.callKey_eq (fun _ hfile => hp.spaced hfile) hb, Address.place, Address.place, hfile,
      hpath, hpath', hpaths]

theorem plan_reportedApart (hloaded : p.Loaded) (hplan : plan p onDisk request = .ok frontier) :
    frontier.ReportedApart p := by
  have hp := hloaded.wellFormed
  obtain ⟨hproper, hcalls⟩ := plan_targets hloaded hplan
  refine ⟨hproper.signatures_reported hloaded, fun a ha b hb hfile hsame => ?_, ?_⟩
  · obtain ⟨d, hd, hsigns⟩ := hproper.signatures a ha
    obtain ⟨hcall, hstart⟩ := hcalls b hb
    obtain ⟨hloaded', hle⟩ := hproper.start_le hp ha
    obtain ⟨y, qs, hpath, hyk, hy, hle'⟩ := hcall.exists_start hp hstart
    have hup := hcall.path
    rw [hpath, ← hfile] at hup
    rw [← hfile] at hle'
    rw [Address.reported_eq_iff hloaded hloaded' hfile hle hle', hy] at hsame
    exact hsigns.start_ne hp hd hup hyk hsame
  · have hkeys : frontier.callSites.Pairwise fun a b => a.callKey ≠ b.callKey :=
      List.pairwise_map.mp hproper.callsOnce
    refine hkeys.imp_of_mem fun {a b} ha hb hne hfile => ?_
    exact (hcalls a ha).1.reported_eq_iff hloaded (hcalls b hb).1 (hcalls a ha).2
      (hcalls b hb).2 hne hfile

end

/-- Lines and columns are found as by a walk over the bytes: there are as many lines before an
offset as line breaks, and as many columns as bytes since the start of the line, which is never
behind the offset. They come in the order of the text, each once. So the targets of a request are
reported at different places, but for calls in a chain, which start at one offset. -/
theorem LineIndex.position_orders :
    (∀ (bytes : ByteArray) (offset : Nat),
      IsPlace (bytes.data.toList.take (min offset bytes.size))
        ((ofBytes bytes).lineStart (min offset bytes.size)) ((ofBytes bytes).position offset) ∧
      (ofBytes bytes).breaksBefore (min offset bytes.size) ≤ (ofBytes bytes).breaks.size) ∧
    (∀ bytes : ByteArray,
      StrictMonoOn (fun offset => ((ofBytes bytes).position offset).inOrder) (Set.Iic bytes.size) ∧
      Set.InjOn (ofBytes bytes).position (Set.Iic bytes.size)) ∧
    ∀ (p : Program) (onDisk : Path → Option Path) (request : Request) (frontier : Frontier),
      p.Loaded → plan p onDisk request = .ok frontier → frontier.ReportedApart p :=
  ⟨fun bytes offset => ⟨isPlace_position bytes offset, breaksBefore_le (Nat.min_le_right _ _)⟩,
    fun bytes => ⟨strictMonoOn_position bytes, injOn_position bytes⟩,
    fun _ _ _ _ hloaded hplan => plan_reportedApart hloaded hplan⟩

def chainText : String :=
  "package main\n\ntype T int\n\nfunc (T) G() \x7b\x7d\n\n" ++
    "func F() T \x7b F().G(); return 0 \x7d\n\n" ++
    "func main() \x7b _ = F \x7d\n"

def chainRequest : Request := ⟨"foo", "int", "main.go:#35", true⟩

theorem plan_chain :
    ∃ p frontier, Program.ofSources (fun _ => none) [(⟨"main.go"⟩, chainText)] = .ok p ∧
    plan p (fun _ => none) chainRequest = .ok frontier ∧ frontier.signatures.length = 2 ∧
    frontier.callKeys = [⟨0, 61⟩, ⟨0, 57⟩] ∧
    frontier.callSites.map (Address.reported p) = [⟨7, 14⟩, ⟨7, 14⟩] := by
  have hchecked : (Program.ofSources (fun _ => none) [(⟨"main.go"⟩, chainText)]).toOption.any
      (fun p =>
      (planWithin 3 p (fun _ => none) chainRequest).toOption.any fun frontier? =>
        frontier?.any fun frontier => frontier.signatures.length == 2 &&
          frontier.callKeys == [⟨0, 61⟩, ⟨0, 57⟩] &&
          frontier.callSites.map (Address.reported p) == [⟨7, 14⟩, ⟨7, 14⟩]) = true := by
    decide +kernel
  obtain ⟨p, hp, hchecked⟩ := any_toOption.mp hchecked
  obtain ⟨_, hplan, hchecked⟩ := any_toOption.mp hchecked
  rw [Option.any_eq_true] at hchecked
  obtain ⟨frontier, rfl, hchecked⟩ := hchecked
  simp only [Bool.and_eq_true, beq_iff_eq] at hchecked
  exact ⟨p, frontier, hp, plan_of_planWithin hplan, hchecked.1.1, hchecked.1.2, hchecked.2⟩

theorem LineIndex.position_orders_chain : ∃ p frontier,
    Program.ofSources (fun _ => none) [(⟨"main.go"⟩, chainText)] = .ok p ∧
    plan p (fun _ => none) chainRequest = .ok frontier ∧ frontier.signatures.length = 2 ∧
    frontier.callSites.length = 2 ∧ frontier.ReportedApart p := by
  obtain ⟨p, frontier, hp, hplan, hsignatures, -, hcalls⟩ := plan_chain
  have hlength : frontier.callSites.length = 2 := by
    rw [← List.length_map (Address.reported p), hcalls]
    rfl
  exact ⟨p, frontier, hp, hplan, hsignatures, hlength,
    LineIndex.position_orders.2.2 p _ _ frontier (.sources hp) hplan⟩

/-- The calls of a chain have different keys, and yet are reported at one place. -/
theorem Frontier.reported_once : ∃ p frontier a b,
    Program.ofSources (fun _ => none) [(⟨"main.go"⟩, chainText)] = .ok p ∧
    plan p (fun _ => none) chainRequest = .ok frontier ∧ frontier.callSites = [a, b] ∧
    a.callKey = ⟨0, 61⟩ ∧ b.callKey = ⟨0, 57⟩ ∧ a.file = b.file ∧
    a.reported p = ⟨7, 14⟩ ∧ b.reported p = ⟨7, 14⟩ := by
  obtain ⟨p, frontier, hp, hplan, -, hkeys, hreported⟩ := plan_chain
  obtain ⟨a, rest, hsites, ha, hrest⟩ := List.map_eq_cons_iff.mp hreported
  obtain ⟨b, rest', rfl, hb, hnil⟩ := List.map_eq_cons_iff.mp hrest
  cases List.map_eq_nil_iff.mp hnil
  rw [Frontier.callKeys, hsites] at hkeys
  obtain ⟨hkey, hkey'⟩ : a.callKey = ⟨0, 61⟩ ∧ b.callKey = ⟨0, 57⟩ := by simpa using hkeys
  have hfile : a.file = 0 := congrArg Key.file hkey
  have hfile' : b.file = 0 := congrArg Key.file hkey'
  exact ⟨p, frontier, a, b, hp, hplan, hsites, hkey, hkey', hfile.trans hfile'.symm, ha, hb⟩

end ParamThreading
