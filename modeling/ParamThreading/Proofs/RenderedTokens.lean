import ParamThreading.Proofs.InStep
import ParamThreading.Proofs.ListTokens
import ParamThreading.Proofs.Weaving

/-!
# The texts that a request renders

A new element goes behind the opening parenthesis of its list or behind the receiver, where the text
can go on with any element. So the tokens of the new text are those of the old one with the tokens
of the elements in between, provided that what is repeated in front of an element on a line of its
own is blank. If a comment that ends there began on an earlier line, it is not.

* `Scan.exists_cut_opening`, `Scan.exists_cut_behind`  the places of a list;
* `Target.Smooth`  only blanks are repeated in front of a new element;
* `Target.faces`  the tokens that a target gets;
* `Renders`, `render_weaves`  what a file becomes.
-/

namespace ParamThreading

namespace Scan

open Token Grammar Rule

/-! ## places of lists -/

section
variable {s c m : Scan} {us : List Token} {x : Char} {rest : List Char}

theorem Steps.stopped_of_blank (h : Steps c [] m) (hchars : m.chars = x :: rest) (hx : x ∈ stops) :
    Stopped c.chars := by
  generalize hnil : ([] : List Token) = none at h
  cases h with
  | refl =>
    rw [hchars]
    exact .cons hx rest
  | head hstep hsteps =>
    obtain ⟨rfl, -⟩ := List.append_eq_nil_iff.mp hnil.symm
    generalize hnone : ([] : List Token) = ts at hstep
    have hpasses := hstep.passes
    cases hstep with
    | space hc hspace =>
      rw [hc]
      exact .cons (mem_stops_of_isSpace hspace) _
    | comment hc hafter =>
      obtain ⟨body, hbody⟩ := exists_cons_of_afterComment hafter
      rw [hbody]
      exact .cons (by decide) _
    | token =>
      -- a token is not read without a token
      subst hnone
      obtain ⟨taken, hne, -, hpos, -⟩ := hpasses
      have hstay : c.pos = c.pos + width taken := hpos
      have hwidth := width_pos hne
      omega

/-- Of two states that come after the same tokens, the one that reads a token is the later one. -/
theorem Steps.blank_before {m' : Scan} {u : Token} (hc : Steps s us c) (hm : Steps s us m)
    (hstep : Step m [u] m') : Steps c [] m := by
  rcases hc.linear hm with ⟨ws, hws, hsteps⟩ | ⟨ws, hws, hsteps⟩
  · rwa [List.append_right_eq_self.mp hws.symm] at hsteps
  · rw [List.append_right_eq_self.mp hws.symm] at hsteps
    generalize hnil : ([] : List Token) = none at hsteps
    cases hsteps with
    | refl => exact hnil ▸ .refl c
    | head hstep' hsteps' =>
      obtain ⟨hread, -⟩ := hstep.unique hstep'
      rw [← hread] at hnil
      cases hnil

theorem char_eq_of_mark {t : Token} {d : Char} {lineBreak : Option Nat} {pos : Nat}
    (ht : t = make .mark lineBreak pos [x]) (htext : t.text = String.singleton d) : x = d := by
  rw [ht] at htext
  have hsingle : String.ofList [x] = String.singleton d := htext
  simpa using congrArg String.toList hsingle

theorem mem_stops_of_mark {t : Token} {lineBreak : Option Nat} {pos : Nat}
    (ht : t = make .mark lineBreak pos [x]) (htext : t.text = "," ∨ t.text = ")") : x ∈ stops := by
  rcases htext with htext | htext
  · rw [char_eq_of_mark (d := ',') ht htext]
    decide
  · rw [char_eq_of_mark (d := ')') ht htext]
    decide

end

section
variable {text : String} {hi : Nat} {list : Node}

/-- Behind the opening parenthesis of a list there is a place for any text. In an empty list, a stop
comes next. -/
theorem exists_cut_opening (hclosed : closed (scan text) = true)
    (hn : Formed rule putsHeld (scan text) hi list) (hk : list.kind.isList = true) :
    ∃ us c, Cut (start text) us c (fun _ => True) ∧ c.pos = list.start + 1 ∧
      (list.codeChildren = [] → Stopped c.chars) := by
  obtain ⟨pre, t, post, htokens, hmark, htext, hstart, hempty⟩ := exists_opening hn hk
  obtain ⟨m, x, rest, hsteps, hchars, ht, hstep⟩ :=
    exists_steps (s := start text) htokens hmark hclosed
  obtain rfl := char_eq_of_mark (d := '(') ht htext
  refine ⟨_, _, cut_parenthesis hsteps hchars ht hstep, ?_, fun hnone => ?_⟩
  · rw [hstart, ht]
    rfl
  · obtain ⟨u, post', rfl, humark, hutext⟩ := hempty hnone
    have hnext : (start text).run = (pre ++ [t]) ++ u :: post' := by
      rw [List.append_assoc]
      exact htokens
    -- only blanks lie between the parenthesis and the mark behind it
    obtain ⟨m', y, rest', hsteps', hchars', hu, hstep'⟩ := exists_steps hnext humark hclosed
    have hblank := (hsteps.trans hstep.steps).blank_before hsteps' hstep'
    exact hblank.stopped_of_blank hchars' (mem_stops_of_mark hu hutext)

theorem exists_cut_behind (hclosed : closed (scan text) = true)
    (hn : Formed rule putsHeld (scan text) hi list) (hk : list.kind = .argumentList) {first : Node}
    (hfirst : list.codeChildren.head? = some first) :
    ∃ us c, Cut (start text) us c (fun rest => Stopped rest ∧ rest.head? ≠ some '/') ∧
      c.pos = first.stop ∧ Stopped c.chars := by
  obtain ⟨pre, u, t, post, htokens, hstop, hmark, htext⟩ := exists_behind_first hn hk hfirst
  have hrun : (start text).run = (pre ++ [u]) ++ t :: post := by
    rw [List.append_assoc]
    exact htokens
  obtain ⟨m, x, rest, hsteps, hchars, ht, -⟩ := exists_steps hrun hmark hclosed
  -- the place is where the last token was read, not where the mark behind it is
  obtain ⟨vs, m₀, ts, c, hus, hvs, hstep, hts, hblank⟩ := hsteps.exists_last (by simp)
  have hstopped := hblank.stopped_of_blank hchars (mem_stops_of_mark ht htext)
  refine ⟨_, c, cut_behind hvs hstep hts hstopped, ?_, hstopped⟩
  have hlast : ts.getLast? = some u := by
    rw [← List.getLast?_append_of_ne_nil vs hts, ← hus, List.getLast?_concat]
  rw [(hstep.reads hts).2, endOf, hlast, hstop]
  rfl

/-! ## elements at their places -/

theorem admits_element {source : SourceFile} {item : String} {faces : List (TokenClass × String)}
    {i : Insertion} (hclosed : closed (scan source.text) = true)
    (hn : Formed rule putsHeld (scan source.text) hi list) (hk : list.kind.isList = true)
    (hitem : ReadableItem item faces)
    (hblank : ∀ first, list.codeChildren.head? = some first →
      (source.lines.position list.start).line < (source.lines.position first.start).line →
      Blank (indentation source.text first.start).toList)
    (hoffset : i.offset = list.start + 1) (htext : i.text =
      elementText source item list list.codeChildren.head? list.codeChildren.isEmpty) :
    Admits source.text i ∧ (tokensOf i.text).map face =
      faces ++ (if list.codeChildren.isEmpty then [] else [(.mark, ",")]) := by
  obtain ⟨us, c, hcut, hpos, hempty⟩ := exists_cut_opening hclosed hn hk
  obtain ⟨ts, hreadable, hfaces⟩ := readable_element hitem hblank
  rw [← htext] at hreadable
  have hnil : list.codeChildren = [] → Stopped [] := fun _ => .nil
  refine ⟨⟨us, c, _, _, ts, hcut, hpos.trans hoffset.symm, fun _ => trivial, hreadable, hnil,
    fun rest hrest hnone => (hempty hnone).of_head hrest⟩, ?_⟩
  rw [hreadable.tokensOf_eq hnil, hfaces]

theorem admits_behind {name : String} {first : Node} {i : Insertion}
    (hclosed : closed (scan text) = true) (hn : Formed rule putsHeld (scan text) hi list)
    (hk : list.kind = .argumentList) (hfirst : list.codeChildren.head? = some first)
    (hname : isWord name = true) (hoffset : i.offset = first.stop) (htext : i.text = ", " ++ name) :
    Admits text i ∧ (tokensOf i.text).map face = [(.mark, ","), (.word, name)] := by
  obtain ⟨us, c, hcut, hpos, hstopped⟩ := exists_cut_behind hclosed hn hk hfirst
  obtain ⟨ts, hreadable, hfaces⟩ := readable_behind hname
  rw [← htext] at hreadable
  refine ⟨⟨us, c, _, _, ts, hcut, hpos.trans hoffset.symm, fun rest => ?_, hreadable, .nil,
    fun rest hrest => hstopped.of_head hrest⟩, ?_⟩
  · have hcomma : i.text.toList ++ rest = ',' :: (' ' :: name.toList ++ rest) := by
      rw [htext, String.toList_append]
      rfl
    rw [hcomma]
    exact ⟨.cons (by decide) _, by simp⟩
  · rw [hreadable.tokensOf_eq .nil, hfaces]

end

end Scan

/-! ## the elements of a request -/

def Inserted.faces : Inserted → List (TokenClass × String)
  | .parameter name type => (.word, name) :: (Token.tokensOf type).map Token.face
  | .argument name => [(.word, name)]

namespace Target

/-- The tokens that a target gets: the element, and a comma if it does not stand alone. -/
def faces (t : Target) : List (TokenClass × String) :=
  if t.list.codeChildren.isEmpty then t.insertion.inserted.faces
  else if t.insertion.offset = t.list.start + 1 then t.insertion.inserted.faces ++ [(.mark, ",")]
  else (.mark, ",") :: t.insertion.inserted.faces

/-- If the first element of the list stands on a later line than its opening and the new one goes in
front of it, only blanks stand before it on that line. -/
def Smooth (p : Program) (t : Target) : Prop :=
  t.insertion.offset = t.list.start + 1 → ∀ first, t.list.codeChildren.head? = some first →
    ((p.file t.file).lines.position t.list.start).line <
      ((p.file t.file).lines.position first.start).line →
    Token.Blank (indentation (p.file t.file).text first.start).toList

def Fits (p : Program) (t : Target) : Prop :=
  Scan.Admits (p.file t.file).text t.insertion ∧
    (Token.tokensOf t.insertion.text).map Token.face = t.faces

theorem faces_opening {t : Target} (h : t.insertion.offset = t.list.start + 1) :
    t.faces = t.insertion.inserted.faces ++
      (if t.list.codeChildren.isEmpty then [] else [(.mark, ",")]) := by
  unfold faces
  rw [if_pos h]
  split
  · exact (List.append_nil _).symm
  · rfl

theorem faces_behind {t : Target} (hne : t.list.codeChildren ≠ [])
    (h : t.insertion.offset ≠ t.list.start + 1) :
    t.faces = (.mark, ",") :: t.insertion.inserted.faces := by
  unfold faces
  rw [if_neg (by rwa [List.isEmpty_iff]), if_neg h]

theorem fits_opening {p : Program} {t : Target} {item : String} (hp : p.WellFormed)
    (hsits : t.Sits p)
    (hclosed : Token.closed (Token.scan (p.file t.file).text) = true) (hsmooth : t.Smooth p)
    (hitem : Scan.ReadableItem item t.insertion.inserted.faces)
    (hoffset : t.insertion.offset = t.list.start + 1)
    (htext : t.insertion.text = elementText (p.file t.file) item t.list t.list.codeChildren.head?
      t.list.codeChildren.isEmpty) : t.Fits p := by
  obtain ⟨hadmits, hfaces⟩ :=
    Scan.admits_element hclosed (hsits.node.formed hp).self hsits.isList hitem
    (hsmooth hoffset) hoffset htext
  exact ⟨hadmits, hfaces.trans (faces_opening hoffset).symm⟩

theorem fits_behind {p : Program} {t : Target} {name : String} {first : Node} (hp : p.WellFormed)
    (hsits : t.Sits p) (hclosed : Token.closed (Token.scan (p.file t.file).text) = true)
    (hk : t.list.kind = .argumentList) (hfirst : t.list.codeChildren.head? = some first)
    (hname : Token.isWord name = true) (hinserted : t.insertion.inserted = .argument name)
    (hoffset : t.insertion.offset = first.stop) (htext : t.insertion.text = ", " ++ name) :
    t.Fits p := by
  have hmem : first ∈ t.list.codeChildren := List.mem_of_mem_head? hfirst
  -- the receiver covers some text behind the parenthesis
  have hne : t.insertion.offset ≠ t.list.start + 1 := by
    have hbetween := hsits.node.between_child hp hsits.isList hmem
    have hlt := hsits.node.filled hp hk hmem
    omega
  obtain ⟨hadmits, hfaces⟩ := Scan.admits_behind hclosed (hsits.node.formed hp).self hk hfirst hname
    hoffset htext
  refine ⟨hadmits, hfaces.trans ?_⟩
  rw [faces_behind (List.ne_nil_of_mem hmem) hne, hinserted]
  rfl

end Target

theorem Program.argument_cases (p : Program) (name : String) (file : FileId) (call list : Node) :
    ((p.argumentPlace file call list).1 = list.start + 1 ∧ p.argumentText name file call list =
      elementText (p.file file) name list list.codeChildren.head? list.codeChildren.isEmpty) ∨
    ∃ first, list.codeChildren.head? = some first ∧
      (p.argumentPlace file call list).1 = first.stop ∧
      p.argumentText name file call list = ", " ++ name := by
  unfold argumentPlace argumentText
  cases ((call.child? .function).bind (p.methodExpressionType? file)).isSome with
  | false => exact .inl ⟨rfl, rfl⟩
  | true =>
    cases list.codeChildren with
    | nil => exact .inl ⟨rfl, rfl⟩
    | cons first rest => exact .inr ⟨first, rfl, rfl, rfl⟩

section
variable {p : Program} {frontier : Frontier} {request : Request}

theorem Frontier.Proper.target_cases (hp : p.WellFormed) (h : frontier.Proper p) {t : Target}
    (ht : t ∈ p.targets frontier request) : t.Sits p ∧
      ((∃ file params, t = p.parameterTarget request.name request.type file params) ∨
        ∃ file call list, list.kind = .argumentList ∧
          t = p.argumentTarget request.name file call list) := by
  rcases List.mem_append.mp ht with ht | ht
  · obtain ⟨a, ha, heq⟩ := List.mem_filterMap.mp ht
    obtain ⟨d, hd, hsigns⟩ := h.signatures a ha
    obtain ⟨params, -, -, heq', hsits, -⟩ := Program.signatureTarget?_eq request hd hsigns
    cases heq'.symm.trans heq
    exact ⟨hsits, .inl ⟨d.file, params, rfl⟩⟩
  · obtain ⟨a, ha, heq⟩ := List.mem_filterMap.mp ht
    obtain ⟨site, list, haddress, hlist, hnode, hk⟩ := h.callSites a ha
    obtain ⟨heq', hsits, -⟩ := Program.callTarget?_eq request hp haddress hlist hnode hk
    cases heq'.symm.trans heq
    exact ⟨hsits, .inr ⟨site.file, site.node, list, hk, rfl⟩⟩

theorem Frontier.Proper.length_targets (hp : p.WellFormed) (h : frontier.Proper p) :
    (p.targets frontier request).length =
      frontier.signatures.length + frontier.callSites.length := by
  have hsignatures : ∀ a ∈ frontier.signatures, (p.signatureTarget? request a).isSome = true := by
    intro a ha
    obtain ⟨d, hd, hsigns⟩ := h.signatures a ha
    obtain ⟨params, -, -, heq, -⟩ := Program.signatureTarget?_eq request hd hsigns
    rw [heq]
    rfl
  have hcalls : ∀ a ∈ frontier.callSites, (p.callTarget? request a).isSome = true := by
    intro a ha
    obtain ⟨site, list, haddress, hlist, hnode, hk⟩ := h.callSites a ha
    rw [(Program.callTarget?_eq request hp haddress hlist hnode hk).1]
    rfl
  rw [Program.targets, List.length_append, List.filterMap_length_eq_length.mpr hsignatures,
    List.filterMap_length_eq_length.mpr hcalls]

/-- The targets of a request fit if only blanks are repeated. -/
theorem Frontier.Proper.fits (hp : p.WellFormed) (h : frontier.Proper p)
    (hname : Token.isWord request.name = true) (htype : Token.isWhole request.type = true)
    {t : Target} (ht : t ∈ p.targets frontier request)
    (hclosed : Token.closed (Token.scan (p.file t.file).text) = true) (hsmooth : t.Smooth p) :
    t.Fits p := by
  obtain ⟨hsits, ⟨file, params, rfl⟩ | ⟨file, call, list, hk, rfl⟩⟩ := h.target_cases hp ht
  · exact Target.fits_opening hp hsits hclosed hsmooth (Scan.readableItem_parameter hname htype) rfl
      rfl
  · rcases p.argument_cases request.name file call list with
      ⟨hoffset, htext⟩ | ⟨first, hfirst, hoffset, htext⟩
    · exact Target.fits_opening hp hsits hclosed hsmooth (Scan.readableItem_name hname)
        hoffset htext
    · exact Target.fits_behind hp hsits hclosed hk hfirst hname rfl hoffset htext

end

/-! ## rendered texts -/

theorem Edits.ordered_strict {is : List Insertion}
    (h : is.Pairwise fun i j => i.offset ≠ j.offset) :
    (ordered is).Pairwise fun i j => i.offset < j.offset := by
  have hapart : (ordered is).Pairwise fun i j => i.offset ≠ j.offset :=
    ((ordered_perm is).pairwise_iff fun hij => hij.symm).mpr h
  refine ((pairwise_ordered is).and hapart).imp fun {i j} hij => ?_
  have hle := hij.1
  have hne := hij.2
  omega

/-- The targets in a file whose insertions are due. -/
def Program.due (p : Program) (frontier : Frontier) (request : Request) (file : FileId) :
    List Target :=
  (p.targets frontier request).filter fun t => t.isDue request.skipIfPresent && t.file == file

/-- A text with the elements of targets in it: every target gets its own tokens at its own place,
and nothing else is changed. -/
structure Renders (text : String) (ts : List Target) (is : List Insertion) (out : String) :
    Prop where
  insertions : is.Perm (ts.map Target.insertion)
  apart : is.Pairwise fun i j => i.offset < j.offset
  elements : ∀ t ∈ ts, (Token.tokensOf t.insertion.text).map Token.face = t.faces
  spliced : Spliced 0 text.toList is out.toList
  tokens : Token.scan out = Token.weave 0 (Token.scan text) is

section
variable {p : Program} {frontier : Frontier} {request : Request} {file : FileId}

theorem Program.mem_due {t : Target} : t ∈ p.due frontier request file ↔
    t ∈ p.targets frontier request ∧ t.isDue request.skipIfPresent = true ∧ t.file = file := by
  rw [Program.due, List.mem_filter, Bool.and_eq_true, beq_iff_eq]

theorem Frontier.Proper.insertions_eq (hp : p.WellFormed) (h : frontier.Proper p) :
    (apply p frontier request).edits.insertions file =
      (p.due frontier request file).map Target.insertion := by
  rw [h.apply_eq request hp, Edits.insertions, List.filter_map, List.map_map, List.filter_filter]
  refine congrArg (List.map Target.insertion) (List.filter_congr fun t _ => ?_)
  exact Bool.and_comm _ _

/-- A file is rendered with the elements of its targets, if these repeat only blanks. -/
theorem Frontier.Proper.renders (hp : p.WellFormed) (h : frontier.Proper p)
    (hname : Token.isWord request.name = true) (htype : Token.isWhole request.type = true)
    (hclosed : Token.closed (Token.scan (p.file file).text) = true)
    (hsmooth : ∀ t ∈ p.due frontier request file, t.Smooth p) :
    ∃ is, Renders (p.file file).text (p.due frontier request file) is
      ((apply p frontier request).edits.render p file) := by
  have hfits : ∀ t ∈ p.due frontier request file, t.Sits p ∧
      Scan.Admits (p.file file).text t.insertion ∧
      (Token.tokensOf t.insertion.text).map Token.face = t.faces := by
    intro t ht
    obtain ⟨hmem, -, rfl⟩ := Program.mem_due.mp ht
    exact ⟨(h.target_cases hp hmem).1, h.fits hp hname htype hmem hclosed (hsmooth t ht)⟩
  have hapart : ((p.due frontier request file).map Target.insertion).Pairwise
      fun i j => i.offset ≠ j.offset := by
    refine List.pairwise_map.mpr (((h.targets_apart request hp).filter _).imp_of_mem ?_)
    intro t t' ht ht' htt'
    obtain ⟨-, -, hfile⟩ := Program.mem_due.mp ht
    obtain ⟨-, -, hfile'⟩ := Program.mem_due.mp ht'
    exact htt' (hfile.trans hfile'.symm)
  have hperm : (Edits.ordered ((apply p frontier request).edits.insertions file)).Perm
      ((p.due frontier request file).map Target.insertion) := by
    rw [h.insertions_eq hp]
    exact Edits.ordered_perm _
  have hstrict := Edits.ordered_strict (h.insertions_eq hp ▸ hapart)
  have hadmits : ∀ i ∈ Edits.ordered ((apply p frontier request).edits.insertions file),
      0 < i.offset ∧ Scan.Admits (p.file file).text i := by
    intro i hi
    obtain ⟨t, ht, rfl⟩ := List.mem_map.mp (hperm.mem_iff.mp hi)
    obtain ⟨hsits, hadmits, -⟩ := hfits t ht
    refine ⟨?_, hadmits⟩
    rcases hsits.place with hoffset | ⟨c, -, hlt, hoffset⟩
    · omega
    · omega
  obtain ⟨hspliced, htokens⟩ := Scan.scan_splice hstrict hadmits
  exact ⟨_, hperm, hstrict, fun t ht => (hfits t ht).2.2, hspliced, htokens⟩

end

/-- A request from a position in a declaration, with a word as its name and whole tokens as its
type, has its targets and passes none of them over. In every file without an open comment all of
whose targets repeat only blanks, they get their tokens, and the rest of the text and its tokens are
what they were. -/
theorem render_weaves {program : Program} {onDisk : Path → Option Path} {request : Request}
    {d : Declaration} (hloaded : program.Loaded)
    (hroots : (Scope.ofProgram program).hasRoots = true)
    (hd : program.Selects onDisk request.position d)
    (hname : Token.isWord request.name = true) (htype : Token.isWhole request.type = true) :
    ∃ frontier, plan program onDisk request = .ok frontier ∧
      (apply program frontier request).skipped = [] ∧
      (program.targets frontier request).length =
        frontier.signatures.length + frontier.callSites.length ∧
      ∀ file, Token.closed (Token.scan (program.file file).text) = true →
        (∀ t ∈ program.due frontier request file, t.Smooth program) →
        ∃ is, Renders (program.file file).text (program.due frontier request file) is
          ((apply program frontier request).edits.render program file) := by
  have hp := hloaded.wellFormed
  obtain ⟨frontier, hplan, hproper, -⟩ := plan_proper hloaded hroots hd
  have hskipped : (apply program frontier request).skipped = [] := by
    rw [hproper.apply_eq request hp]
  exact ⟨frontier, hplan, hskipped, hproper.length_targets hp, fun file hclosed hsmooth =>
    hproper.renders hp hname htype hclosed hsmooth⟩

/-- A parameter behind a comment that began on the line before. -/
def commentedText : String :=
  "package main\n\nfunc f(/* a\n   b */ n int) \x7b\x7d\n\nfunc main() \x7b\n\tf(1)\n\x7d\n"

def commentedEdits : Edits :=
  ⟨[(0, ⟨21, .parameter "foo" "int", "\n   b */ foo int,"⟩),
    (0, ⟨55, .parameter "foo" "int", "foo int"⟩), (0, ⟨62, .argument "foo", "foo, "⟩)]⟩

-- The end of the comment is repeated in front of the new parameter, so that what is rendered has no
-- syntax tree.
example : editsWithin 4 ⟨"main.go"⟩ commentedText ⟨"foo", "int", "main.go:#19", true⟩ =
      some commentedEdits ∧
    Grammar.parse (Edits.splice commentedText 0 (commentedEdits.insertions 0)) = none := by
  decide +kernel

end ParamThreading
