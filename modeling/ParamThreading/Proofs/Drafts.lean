import ParamThreading.Proofs.RenderedTexts

/-!
# Insertions made one by one

A file is rendered in one pass over its insertions, which are sorted by offset. That comes to the
same as making them in the order in which they were recorded, each in the text that the earlier ones
have left: there an offset of the source has moved by what was inserted at smaller offsets. The pass
cuts the source between characters only, and without the insertions the source is there again.

* `slice?`, `Edits.splice?`, `Edits.withdraw?`  cutting a text, with the offsets checked;
* `Draft`, `Draft.insert?`  a text in the making;
* `Spliced.insert`, `Edits.ordered_concat`  one more insertion, in the text and in the order;
* `render_stepwise`  what is rendered for a sequence of changes.
-/

namespace ParamThreading

open Token

/-! ## checked cuts -/

/-- The part of a text between two offsets, which have to be in order and between characters. -/
def slice? (text : String) (start stop : Nat) : Option String :=
  if start ≤ stop ∧ String.Pos.Raw.IsValid text ⟨start⟩ ∧ String.Pos.Raw.IsValid text ⟨stop⟩ then
    some (Node.slice text start stop)
  else none

namespace Edits

/-- The text from an offset on with insertions given by increasing offset; none if a part of the
source cannot be cut out. -/
def splice? (source : String) : Nat → List Insertion → Option String
  | cursor, [] => slice? source cursor source.utf8ByteSize
  | cursor, i :: is => do
    let before ← slice? source cursor i.offset
    let rest ← splice? source i.offset is
    return before ++ i.text ++ rest

/-- The text from an offset of the source on without insertions, given by increasing offset, each of
which has to stand at its offset, moved by the earlier ones. -/
def withdraw? (text : String) : (moved cursor : Nat) → List Insertion → Option String
  | moved, cursor, [] => slice? text (cursor + moved) text.utf8ByteSize
  | moved, cursor, i :: is => do
    let before ← slice? text (cursor + moved) (i.offset + moved)
    let piece ← slice? text (i.offset + moved) (i.offset + moved + i.text.utf8ByteSize)
    let rest ← withdraw? text (moved + i.text.utf8ByteSize) i.offset is
    if piece = i.text then some (before ++ rest) else none

end Edits

theorem isValid_width {text : String} {pre post : List Char} (h : text.toList = pre ++ post) :
    String.Pos.Raw.IsValid text ⟨width pre⟩ := by
  have htext : text = String.ofList pre ++ String.ofList post := by
    rw [← String.ofList_append, ← h, String.ofList_toList]
  have hend : (String.ofList pre).rawEndPos = ⟨width pre⟩ := by
    rw [String.rawEndPos, ← width_toList, String.toList_ofList]
  rw [htext, ← hend]
  exact String.Pos.Raw.isValid_rawEndPos.append_right _

theorem slice?_eq {text : String} {pre mid post : List Char}
    (h : text.toList = pre ++ mid ++ post) :
    slice? text (width pre) (width pre + width mid) = some (String.ofList mid) := by
  have hstart : String.Pos.Raw.IsValid text ⟨width pre⟩ :=
    isValid_width (h.trans (List.append_assoc ..))
  have hstop : String.Pos.Raw.IsValid text ⟨width pre + width mid⟩ := by
    rw [← width_append]
    exact isValid_width h
  rw [slice?, if_pos ⟨Nat.le_add_right _ _, hstart, hstop⟩, Node.slice_eq h]

theorem slice?_rest {text : String} {pre post : List Char} (h : text.toList = pre ++ post) :
    slice? text (width pre) text.utf8ByteSize = some (String.ofList post) := by
  rw [utf8ByteSize_eq h, slice?_eq (h.trans (List.append_nil _).symm)]

namespace Spliced

variable {pos : Nat} {cs out : List Char} {is : List Insertion}

/-- A text with insertions is found by cutting the source. -/
theorem splice?_eq (h : Spliced pos cs is out) {source : String} {pre : List Char}
    (hsource : source.toList = pre ++ cs) (hpos : pos = width pre) :
    Edits.splice? source pos is = some (String.ofList out) := by
  induction h generalizing pre with
  | rest =>
    rw [hpos]
    exact slice?_rest hsource
  | @insertion pos taken cs out i is hoffset _ ih =>
    have hsource' : source.toList = pre ++ taken ++ cs := by rw [hsource, List.append_assoc]
    rw [Edits.splice?, ih hsource' (by rw [hoffset, hpos, width_append]), hoffset, hpos,
      slice?_eq hsource']
    simp [String.append_assoc]

/-- A source is found by cutting the insertions out of a text. -/
theorem withdraw?_eq (h : Spliced pos cs is out) {text : String} {pre : List Char} {moved : Nat}
    (htext : text.toList = pre ++ out) (hpos : pos + moved = width pre) :
    Edits.withdraw? text moved pos is = some (String.ofList cs) := by
  induction h generalizing pre moved with
  | rest =>
    rw [Edits.withdraw?, hpos]
    exact slice?_rest htext
  | @insertion pos taken cs out i is hoffset _ ih =>
    have hbefore : text.toList = pre ++ taken ++ (i.text.toList ++ out) := by
      rw [htext, List.append_assoc]
    have hpiece : text.toList = pre ++ taken ++ i.text.toList ++ out := by
      rw [hbefore, List.append_assoc (pre ++ taken)]
    have hstop : i.offset + moved = width pre + width taken := by omega
    have hbehind :
        i.offset + (moved + i.text.utf8ByteSize) = width (pre ++ taken ++ i.text.toList) := by
      rw [width_append, width_append, width_toList]
      omega
    have hcut := slice?_eq hpiece
    rw [width_append, width_toList, String.ofList_toList] at hcut
    rw [Edits.withdraw?, hpos, hstop, slice?_eq hbefore, hcut, ih hpiece hbehind]
    simp

/-! ## one more insertion -/

theorem skip {taken rest : List Char} (h : Spliced pos (taken ++ rest) is out)
    (his : ∀ i ∈ is, pos + width taken ≤ i.offset) :
    ∃ out', out = taken ++ out' ∧ Spliced (pos + width taken) rest is out' := by
  generalize hcs : taken ++ rest = cs at h
  cases h with
  | rest => exact ⟨rest, hcs.symm, .rest⟩
  | @insertion _ first cs out i is hoffset hrest =>
    have hle := his i List.mem_cons_self
    obtain ⟨mid, rfl, rfl⟩ := exists_of_width_le hcs (by omega)
    rw [width_append] at hoffset
    exact ⟨_, List.append_assoc .., .insertion (by omega) hrest⟩

end Spliced

def Edits.growth : List Insertion → Nat
  | [] => 0
  | i :: is => i.text.utf8ByteSize + growth is

/-- An insertion behind some insertions and before the others goes behind the part of the text that
belongs to the former, which is longer than it was in the source by what they have inserted. -/
theorem Spliced.insert {pos : Nat} {taken rest out : List Char} {before behind : List Insertion}
    {i : Insertion} (h : Spliced pos (taken ++ rest) (before ++ behind) out)
    (hi : i.offset = pos + width taken) (hbefore : ∀ j ∈ before, j.offset ≤ i.offset)
    (hbehind : ∀ j ∈ behind, i.offset ≤ j.offset) :
    ∃ xs ys, out = xs ++ ys ∧ pos + width xs = i.offset + Edits.growth before ∧
      Spliced pos (taken ++ rest) (before ++ i :: behind) (xs ++ (i.text.toList ++ ys)) := by
  induction before generalizing pos taken out with
  | nil =>
    obtain ⟨ys, rfl, hrest⟩ := h.skip fun j hj => hi ▸ hbehind j hj
    exact ⟨taken, ys, rfl, hi.symm, .insertion hi (hi ▸ hrest)⟩
  | cons j before ih =>
    obtain ⟨hj, hbefore⟩ := List.forall_mem_cons.mp hbefore
    generalize hcs : taken ++ rest = cs at h
    cases h with
    | @insertion _ first cs out _ _ hoffset hrest =>
      obtain ⟨mid, rfl, rfl⟩ := exists_of_width_le hcs.symm (by omega)
      rw [width_append] at hi
      obtain ⟨xs, ys, rfl, hwidth, hspliced⟩ := ih hrest (by omega) hbefore
      refine ⟨first ++ (j.text.toList ++ xs), ys, by simp, ?_, ?_⟩
      · rw [width_append, width_append, width_toList, Edits.growth]
        omega
      · simp only [List.append_assoc, List.cons_append]
        exact .insertion hoffset hspliced

namespace Edits

theorem growth_append (is js : List Insertion) : growth (is ++ js) = growth is + growth js := by
  induction is with
  | nil => exact (Nat.zero_add _).symm
  | cons i is ih =>
    rw [List.cons_append, growth, growth, ih]
    omega

theorem growth_perm {is js : List Insertion} (h : is.Perm js) : growth is = growth js := by
  induction h with
  | nil => rfl
  | cons i _ ih => rw [growth, growth, ih]
  | swap i j is =>
    rw [growth, growth, growth, growth]
    omega
  | trans _ _ ih ih' => exact ih.trans ih'

theorem exists_split {is : List Insertion} (h : is.Pairwise fun i j => i.offset ≤ j.offset)
    (offset : Nat) : ∃ before behind, is = before ++ behind ∧ (∀ i ∈ before, i.offset < offset) ∧
      ∀ i ∈ behind, offset ≤ i.offset := by
  induction is with
  | nil => exact ⟨[], [], rfl, nofun, nofun⟩
  | cons i is ih =>
    obtain ⟨hi, his⟩ := List.pairwise_cons.mp h
    by_cases hlt : i.offset < offset
    · obtain ⟨before, behind, rfl, hbefore, hbehind⟩ := ih his
      exact ⟨i :: before, behind, rfl, List.forall_mem_cons.mpr ⟨hlt, hbefore⟩, hbehind⟩
    · have hle := Nat.le_of_not_lt hlt
      exact ⟨[], i :: is, rfl, nofun,
        List.forall_mem_cons.mpr ⟨hle, fun j hj => hle.trans (hi j hj)⟩⟩

/-- An insertion that is recorded last comes before those at its own offset and behind those at
smaller offsets. -/
theorem ordered_concat (is : List Insertion) (i : Insertion) :
    ∃ before behind, ordered is = before ++ behind ∧ ordered (is ++ [i]) = before ++ i :: behind ∧
      (∀ j ∈ before, j.offset < i.offset) ∧ ∀ j ∈ behind, i.offset ≤ j.offset := by
  obtain ⟨before, behind, hsplit, hbefore, hbehind⟩ := exists_split (pairwise_ordered is) i.offset
  refine ⟨before, behind, hsplit, ?_, hbefore, hbehind⟩
  have hsorted := pairwise_ordered is
  rw [hsplit, List.pairwise_append] at hsorted
  obtain ⟨h₁, h₂, -⟩ := hsorted
  refine eq_of_filter_offset (pairwise_ordered _) ?_ fun offset => ?_
  · refine List.pairwise_append.mpr ⟨h₁, List.pairwise_cons.mpr ⟨hbehind, h₂⟩, ?_⟩
    intro j hj k hk
    have hj := hbefore j hj
    rcases List.mem_cons.mp hk with rfl | hk
    · omega
    · have hk := hbehind k hk
      omega
  · rw [filter_ordered, List.filter_append, List.reverse_append, ← filter_ordered is, hsplit,
      List.filter_append, List.filter_append, List.filter_cons]
    by_cases hoffset : i.offset = offset
    · have hnone : before.filter (·.offset == offset) = [] := by
        rw [List.filter_eq_nil_iff]
        intro j hj
        have hj := hbefore j hj
        simp only [beq_iff_eq]
        omega
      simp [hnone, hoffset]
    · simp [hoffset]

theorem growth_before {is before behind : List Insertion} {offset : Nat}
    (h : ordered is = before ++ behind) (hbefore : ∀ j ∈ before, j.offset < offset)
    (hbehind : ∀ j ∈ behind, offset ≤ j.offset) :
    growth (is.filter (·.offset < offset)) = growth before := by
  have hperm := (ordered_perm is).filter (·.offset < offset)
  rw [← growth_perm hperm, h, List.filter_append,
    List.filter_eq_self.mpr fun j hj => decide_eq_true (hbefore j hj),
    List.filter_eq_nil_iff.mpr fun j hj => by simpa using hbehind j hj, List.append_nil]

end Edits

/-! ## drafts -/

/-- A text in the making, and where the offsets of the source have moved to in it. -/
structure Draft where
  text : String
  image : Nat → Nat

namespace Draft

def ofSource (source : String) : Draft := ⟨source, id⟩

/-- Makes an insertion directly behind the image of what stands before its offset in the source. All
larger offsets move. -/
def insert? (d : Draft) (i : Insertion) : Option Draft := do
  let before ← slice? d.text 0 (d.image i.offset)
  let behind ← slice? d.text (d.image i.offset) d.text.utf8ByteSize
  return ⟨before ++ i.text ++ behind,
    fun o => if i.offset < o then d.image o + i.text.utf8ByteSize else d.image o⟩

structure Shows (source : String) (is : List Insertion) (d : Draft) : Prop where
  text : Spliced 0 source.toList (Edits.ordered is) d.text.toList
  image : ∀ o, d.image o = o + Edits.growth (is.filter (·.offset < o))

variable {source : String} {is js : List Insertion} {d : Draft}

theorem shows_ofSource (source : String) : Shows source [] (ofSource source) :=
  ⟨by simpa [Edits.ordered] using .rest, fun _ => rfl⟩

theorem Shows.insert? (h : Shows source is d) {i : Insertion} (hi : Boundary source i.offset) :
    ∃ d', d.insert? i = some d' ∧ Shows source (is ++ [i]) d' := by
  obtain ⟨pre, post, hsource, hoffset⟩ := hi
  obtain ⟨before, behind, hold, hnew, hbefore, hbehind⟩ := Edits.ordered_concat is i
  have htext := h.text
  rw [hsource, hold] at htext
  obtain ⟨xs, ys, hcut, hwidth, hspliced⟩ := htext.insert (i := i) (by omega)
    (fun j hj => (hbefore j hj).le) hbehind
  have himage : d.image i.offset = width xs := by
    rw [h.image, Edits.growth_before hold hbefore hbehind]
    omega
  have hfirst : slice? d.text 0 (width xs) = some (String.ofList xs) := by
    have hwhole : d.text.toList = [] ++ xs ++ ys := hcut
    simpa [width] using slice?_eq hwhole
  refine ⟨_, by rw [Draft.insert?, himage, hfirst, slice?_rest hcut]; rfl, ?_, fun o => ?_⟩
  · rw [hnew, hsource]
    simpa using hspliced
  · rw [List.filter_append, Edits.growth_append]
    show (if i.offset < o then d.image o + i.text.utf8ByteSize else d.image o) = _
    rw [h.image]
    by_cases ho : i.offset < o
    · rw [if_pos ho, List.filter_cons_of_pos (by simpa using ho)]
      simp only [List.filter_nil, Edits.growth]
      omega
    · rw [if_neg ho, List.filter_cons_of_neg (by simpa using ho)]
      rfl

/-- Insertions between characters can be made one after the other. -/
theorem Shows.foldlM (h : Shows source is d) (hjs : ∀ j ∈ js, Boundary source j.offset) :
    ∃ d', js.foldlM Draft.insert? d = some d' ∧ Shows source (is ++ js) d' := by
  induction js generalizing is d with
  | nil => exact ⟨d, rfl, by rwa [List.append_nil]⟩
  | cons j js ih =>
    obtain ⟨hj, hjs⟩ := List.forall_mem_cons.mp hjs
    obtain ⟨d₁, hd₁, hshows₁⟩ := h.insert? hj
    obtain ⟨d₂, hd₂, hshows₂⟩ := ih hshows₁ hjs
    rw [List.append_assoc] at hshows₂
    exact ⟨d₂, by rw [List.foldlM_cons, hd₁]; exact hd₂, hshows₂⟩

end Draft

/-! ## the places of changes -/

namespace Change

variable {p : Program} {c : Change} {k : Key}

theorem boundary_place (hp : p.WellFormed) (hc : c.address.In p) (h : c.place? p = some k) :
    Boundary (p.file k.file).text k.offset := by
  cases c with
  | parameter a name type skip =>
    obtain ⟨list, hlist, rfl⟩ := Option.map_eq_some_iff.mp h
    obtain ⟨hnode, hkind⟩ := Option.filter_eq_some_iff.mp hlist
    have hkind := of_decide_eq_true hkind
    have hlist := hc.hasNode hp hnode (by rw [hkind]; rfl) (by rw [hkind]; decide)
    exact hlist.boundary_opening hp (by rw [hkind]; rfl)
  | argument a name skip =>
    obtain ⟨call, hcall, h⟩ := Option.bind_eq_some_iff.mp h
    obtain ⟨list, hlist, rfl⟩ := Option.map_eq_some_iff.mp h
    obtain ⟨hnode, hkind⟩ := Option.filter_eq_some_iff.mp hcall
    have hkind := of_decide_eq_true hkind
    have hcall := hc.hasNode hp hnode (by rw [hkind]; rfl) (by rw [hkind]; decide)
    obtain ⟨hmem, hargs⟩ := hcall.arguments hp hkind hlist
    have hchild := hcall.child hmem
    rcases p.argument_cases name a.file call list with ⟨hoffset, -⟩ | ⟨first, hfirst, hoffset, -⟩
    · have hopening := hchild.boundary_opening hp (by rw [hargs]; rfl)
      rwa [← hoffset] at hopening
    · have hbehind := hchild.boundary_first hp hargs hfirst
      rwa [← hoffset] at hbehind

theorem boundary_afterAll (hp : p.WellFormed) {cs : List Change} (hcs : ∀ c ∈ cs, c.address.In p)
    {e : Edits} (he : ∀ x ∈ e.entries, Boundary (p.file x.1).text x.2.offset) :
    ∀ x ∈ (afterAll p e cs).entries, Boundary (p.file x.1).text x.2.offset := by
  intro x hx
  rcases mem_afterAll hx with hx | ⟨c, hc, e', hx⟩
  · exact he x hx
  · obtain ⟨k, hplace, hfile, hoffset⟩ := mem_added hx
    rw [hfile, hoffset]
    exact boundary_place hp (hcs c hc) hplace

end Change

/-- What is rendered after any changes is cut out of the source without fault, and it is what comes
of making the recorded insertions one by one in their order, so that of two at one offset the later
one comes first. Without the insertions it is the source. -/
theorem render_stepwise {p : Program} (hloaded : p.Loaded) {cs : List Change}
    (hcs : ∀ c ∈ cs, c.address.In p) (file : FileId) :
    let source := (p.file file).text
    let recorded := (Change.afterAll p .empty cs).insertions file
    let rendered := (Change.afterAll p .empty cs).render p file
    Edits.splice? source 0 (Edits.ordered recorded) = some rendered ∧
    (∃ d, recorded.foldlM Draft.insert? (.ofSource source) = some d ∧ d.text = rendered) ∧
    (∀ offset, (Edits.ordered recorded).filter (·.offset == offset) =
      (recorded.filter (·.offset == offset)).reverse) ∧
    Edits.withdraw? rendered 0 0 (Edits.ordered recorded) = some source := by
  intro source recorded rendered
  have hrecorded : ∀ i ∈ recorded, Boundary source i.offset := by
    intro i hi
    obtain ⟨x, hx, rfl⟩ := List.mem_map.mp hi
    obtain ⟨hx, hfile⟩ := List.mem_filter.mp hx
    have hx := Change.boundary_afterAll hloaded.wellFormed hcs (e := .empty) nofun x hx
    rwa [beq_iff_eq.mp hfile] at hx
  have hwhole : source.toList = [] ++ source.toList := rfl
  have hspliced : Spliced 0 source.toList (Edits.ordered recorded) rendered.toList :=
    Edits.spliced hwhole (Edits.pairwise_ordered _) fun i hi =>
      ⟨Nat.zero_le _, hrecorded i ((Edits.ordered_perm _).mem_iff.mp hi)⟩
  have hsplice := hspliced.splice?_eq hwhole rfl
  rw [String.ofList_toList] at hsplice
  obtain ⟨d, hd, hshows⟩ := (Draft.shows_ofSource source).foldlM hrecorded
  refine ⟨hsplice, ⟨d, hd, ?_⟩, Edits.filter_ordered recorded, ?_⟩
  · -- the draft and the rendered text are cut out of the source by the same offsets
    have htext := hshows.text.splice?_eq hwhole rfl
    rw [List.nil_append, hsplice, String.ofList_toList] at htext
    exact (Option.some.inj htext).symm
  · have hrendered : rendered.toList = [] ++ rendered.toList := rfl
    have hback : Edits.withdraw? rendered 0 0 (Edits.ordered recorded) =
        some (.ofList source.toList) :=
      hspliced.withdraw?_eq hrendered rfl
    rwa [String.ofList_toList] at hback

/-- A call in the arguments of another one, behind a character of two bytes. -/
def echoSources : List (Path × String) :=
  [(⟨"echo.go"⟩, "package p\n\nfunc f(s string) \x7b\n\tf(\"é\" + f(s))\n\x7d\n")]

def echoChanges (list outer inner : Address) : List Change :=
  [.argument outer "a" false, .argument inner "b" false, .parameter list "a" "int" false,
    .argument outer "c" false]

def echoEdits : Edits :=
  ⟨[(0, ⟨33, .argument "a", "a, "⟩), (0, ⟨42, .argument "b", "b, "⟩),
    (0, ⟨18, .parameter "a" "int", "a int, "⟩), (0, ⟨33, .argument "c", "c, "⟩)]⟩

theorem render_stepwise_echo : ∃ p list outer inner,
    Program.ofSources (fun _ => none) echoSources = .ok p ∧
    (∀ c ∈ echoChanges list outer inner, c.address.In p) ∧
    Change.afterAll p .empty (echoChanges list outer inner) = echoEdits ∧
    Edits.splice? (p.file 0).text 0 (Edits.ordered (echoEdits.insertions 0)) =
      some (echoEdits.render p 0) ∧
    (∃ d, (echoEdits.insertions 0).foldlM Draft.insert? (.ofSource (p.file 0).text) = some d ∧
      d.text = echoEdits.render p 0) ∧
    (∀ offset, (Edits.ordered (echoEdits.insertions 0)).filter (·.offset == offset) =
      ((echoEdits.insertions 0).filter (·.offset == offset)).reverse) ∧
    Edits.withdraw? (echoEdits.render p 0) 0 0 (Edits.ordered (echoEdits.insertions 0)) =
      some (p.file 0).text := by
  have hchecked : (Program.ofSources (fun _ => none) echoSources).toOption.any (fun p =>
      decide (0 < p.files.length) && (resolveRange p 0 17 27 true).toOption.any fun list =>
        (resolveRange p 0 31 45 true).toOption.any fun outer =>
          (resolveRange p 0 40 44 true).toOption.any fun inner =>
            decide (Change.afterAll p .empty (echoChanges list outer inner) = echoEdits))
              = true := by
    decide +kernel
  obtain ⟨p, hp, hchecked⟩ := any_toOption.mp hchecked
  obtain ⟨hfile, hchecked⟩ := Bool.and_eq_true_iff.mp hchecked
  obtain ⟨list, hlist, hchecked⟩ := any_toOption.mp hchecked
  obtain ⟨outer, houter, hchecked⟩ := any_toOption.mp hchecked
  obtain ⟨inner, hinner, hedits⟩ := any_toOption.mp hchecked
  have hedits := of_decide_eq_true hedits
  have hfile := of_decide_eq_true hfile
  have hin : ∀ c ∈ echoChanges list outer inner, c.address.In p := by
    have ho := Address.in_of_resolveRange hfile houter
    simp only [echoChanges, List.forall_mem_cons]
    exact ⟨ho, Address.in_of_resolveRange hfile hinner, Address.in_of_resolveRange hfile hlist, ho,
      nofun⟩
  have hsteps := render_stepwise (.sources hp) hin 0
  rw [hedits] at hsteps
  exact ⟨p, list, outer, inner, hp, hin, hedits, hsteps⟩

end ParamThreading
