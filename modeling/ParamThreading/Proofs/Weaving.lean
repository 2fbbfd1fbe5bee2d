import ParamThreading.Proofs.ElementTokens

/-!
# Texts with insertions

If every insertion goes to a place where the text may go on with any other one, the tokens of the
new text are those of the old one, moved, and those of the insertions between them.

* `Spliced`  a text with insertions in it and nothing else changed;
* `Token.weave`  tokens with those of insertions between them;
* `Scan.Joins`  an insertion that fits at its place;
* `Scan.scan_splice`  a text with insertions and its tokens.
-/

namespace ParamThreading

/-- From an offset on, the second text is the first one with insertions at their offsets. -/
inductive Spliced : Nat → List Char → List Insertion → List Char → Prop where
  | rest {pos : Nat} {cs : List Char} : Spliced pos cs [] cs
  | insertion {pos : Nat} {taken cs out : List Char} {i : Insertion} {is : List Insertion} :
      i.offset = pos + Token.width taken → Spliced i.offset cs is out →
      Spliced pos (taken ++ cs) (i :: is) (taken ++ (i.text.toList ++ out))

/-- The tokens of a text with insertions, which are given by increasing offset. All tokens are moved
by the length of what was inserted before them. -/
def Token.weave : Nat → List Token → List Insertion → List Token
  | moved, ts, [] => ts.map (shift moved)
  | moved, ts, i :: is =>
    (ts.takeWhile (·.start < i.offset)).map (shift moved) ++
      (tokensOf i.text).map (shift (i.offset + moved)) ++
      weave (moved + i.text.utf8ByteSize) (ts.dropWhile (·.start < i.offset)) is

open Token

theorem Token.weave_cons {moved : Nat} {us ts : List Token} {i : Insertion} {is : List Insertion}
    (hus : ∀ t ∈ us, t.start < i.offset) (hts : ∀ t, ts.head? = some t → i.offset ≤ t.start) :
    weave moved (us ++ ts) (i :: is) = us.map (shift moved) ++
      (tokensOf i.text).map (shift (i.offset + moved)) ++
        weave (moved + i.text.utf8ByteSize) ts is := by
  have hall : ∀ t ∈ us, decide (t.start < i.offset) = true := fun t ht => decide_eq_true (hus t ht)
  have hhead : ts.takeWhile (·.start < i.offset) = [] ∧ ts.dropWhile (·.start < i.offset) = ts := by
    cases ts with
    | nil => exact ⟨rfl, rfl⟩
    | cons t ts =>
      have hnot : ¬decide (t.start < i.offset) = true := by
        have := hts t rfl
        simpa using this
      exact ⟨List.takeWhile_cons_of_neg hnot, List.dropWhile_cons_of_neg hnot⟩
  rw [weave, List.takeWhile_append_of_pos hall, List.dropWhile_append_of_pos hall, hhead.1, hhead.2,
    List.append_nil]

theorem Node.slice_eq {text : String} {pre mid post : List Char}
    (h : text.toList = pre ++ mid ++ post) :
    Node.slice text (width pre) (width pre + width mid) = String.ofList mid := by
  rw [width_eq_utf8Len, width_eq_utf8Len, Node.slice, ← String.extract_of_valid pre mid post, ← h,
    String.ofList_toList]

theorem utf8ByteSize_eq {text : String} {pre post : List Char} (h : text.toList = pre ++ post) :
    text.utf8ByteSize = width pre + width post := by
  rw [← width_toList, h, width_append]

theorem Node.slice_rest {text : String} {pre post : List Char} (h : text.toList = pre ++ post) :
    Node.slice text (width pre) text.utf8ByteSize = String.ofList post := by
  rw [utf8ByteSize_eq h, Node.slice_eq (h.trans (List.append_nil _).symm)]

namespace Scan

/-- An insertion that can be made in a text: its place is a cut, and it is read there as it would be
alone, whatever the text goes on with. -/
structure Joins (text : String) (i : Insertion) (us : List Token) (c : Scan)
    (fits reads : List Char → Prop) (ts : List Token) : Prop where
  cut : Cut (start text) us c fits
  pos : c.pos = i.offset
  fits : ∀ rest, fits (i.text.toList ++ rest)
  readable : Readable none 0 i.text.toList reads ts none
  nil : reads []
  next : ∀ rest, rest.head? = c.chars.head? → reads rest

def Admits (text : String) (i : Insertion) : Prop :=
  ∃ us c fits reads ts, Joins text i us c fits reads ts

theorem le_start_of_run {s : Scan} (h : s.lineBreak = none) {t : Token}
    (ht : s.run.head? = some t) : s.pos ≤ t.start := by
  have hchained : Chained (s.pos + width s.chars) s.pos s.run := by
    unfold run
    rw [h]
    exact scanFrom_chained _ none _ _ _ (Nat.le_refl _) nofun
  cases hrun : s.run with
  | nil => rw [hrun] at ht; cases ht
  | cons u us =>
    rw [hrun] at hchained ht
    cases ht
    exact hchained.2.1

theorem slice_of_steps {text : String} {r : Scan} {vs : List Token} {taken rest : List Char}
    (hr : Steps (start text) vs r) (hchars : r.chars = taken ++ rest) :
    Node.slice text r.pos (r.pos + width taken) = String.ofList taken := by
  obtain ⟨before, htext, hpos, -⟩ := hr.passes
  have htext : text.toList = before ++ taken ++ rest := by
    rw [List.append_assoc, ← hchars]
    exact htext
  have hpos : r.pos = width before := by rw [hpos, show (start text).pos = 0 from rfl, Nat.zero_add]
  rw [hpos, Node.slice_eq htext]

/-- The text from a state on, with insertions: it begins as before, and its tokens are woven. -/
theorem run_splice {text : String} {r : Scan} {vs : List Token} {is : List Insertion} (moved : Nat)
    (hr : Steps (start text) vs r) (hfresh : r.lineBreak = none)
    (hsorted : is.Pairwise fun i j => i.offset < j.offset)
    (his : ∀ i ∈ is, r.pos < i.offset ∧ Admits text i) :
    (Edits.splice text r.pos is).toList.head? = r.chars.head? ∧
      Spliced r.pos r.chars is (Edits.splice text r.pos is).toList ∧
      run ⟨none, r.pos + moved, (Edits.splice text r.pos is).toList⟩ = weave moved r.run is := by
  induction is generalizing r vs moved with
  | nil =>
    have hsplice : (Edits.splice text r.pos []).toList = r.chars := by
      obtain ⟨before, htext, hpos, -⟩ := hr.passes
      rw [Edits.splice, hpos, show (start text).pos = 0 from rfl, Nat.zero_add,
        Node.slice_rest htext, String.toList_ofList]
    refine ⟨by rw [hsplice], by rw [hsplice]; exact .rest, ?_⟩
    rw [hsplice, weave, ← run_shift, shift, hfresh]
    rfl
  | cons i is ih =>
    obtain ⟨hlt, us, c, fits, reads, ts, hjoins⟩ := his i List.mem_cons_self
    obtain ⟨hbefore, hsorted⟩ := List.pairwise_cons.mp hsorted
    rw [← hjoins.pos] at hlt
    obtain ⟨ws, taken, rfl, hchars, hexchange⟩ := hjoins.cut.exchange r vs hr hlt
    -- what follows the place in the new text
    obtain ⟨hhead, hspliced, hrest⟩ :=
      ih (moved + i.text.utf8ByteSize) hjoins.cut.steps hjoins.cut.fresh hsorted
      fun j hj => ⟨by rw [hjoins.pos]; exact hbefore j hj, (his j (List.mem_cons_of_mem _ hj)).2⟩
    generalize htail : (Edits.splice text c.pos is).toList = tail at hhead hspliced hrest
    have hsteps := hexchange (i.text.toList ++ tail) (hjoins.fits tail)
    obtain ⟨hpos, hstarts⟩ : c.pos = r.pos + width taken ∧ ∀ t ∈ ws, t.start < c.pos := by
      obtain ⟨taken', htaken, hpos, hstarts⟩ := hsteps.passes
      rw [List.append_cancel_right htaken]
      exact ⟨hpos, hstarts⟩
    have hsplice : (Edits.splice text r.pos (i :: is)).toList =
        taken ++ (i.text.toList ++ tail) := by
      rw [Edits.splice, ← hjoins.pos, String.toList_append, String.toList_append, htail, hpos,
        slice_of_steps hr hchars, String.toList_ofList, List.append_assoc]
    have hrun : r.run = ws ++ c.run := by
      have hwhole := hr.run_eq.symm.trans hjoins.cut.steps.run_eq
      rw [List.append_assoc] at hwhole
      exact List.append_cancel_left hwhole
    refine ⟨?_, ?_, ?_⟩
    · have hne : taken ≠ [] := by
        rintro rfl
        rw [hpos] at hlt
        exact absurd hlt (Nat.lt_irrefl _)
      rw [hsplice, hchars, List.head?_append_of_ne_nil _ hne, List.head?_append_of_ne_nil _ hne]
    · rw [hjoins.pos] at hspliced
      rw [hsplice, hchars]
      exact .insertion (hjoins.pos.symm.trans hpos) hspliced
    · have hmoved := hsteps.shift moved
      rw [withChars, withChars, hfresh, hjoins.cut.fresh] at hmoved
      have hinserted := hjoins.readable.shift (c.pos + moved) tail (hjoins.next tail hhead)
      rw [Nat.zero_add, width_toList, Nat.add_assoc] at hinserted
      rw [hrun, weave_cons (by rwa [← hjoins.pos]) fun t ht => ?_, ← hjoins.pos, ← hrest,
        hjoins.readable.tokensOf_eq hjoins.nil]
      · rw [hsplice]
        exact (hmoved.trans hinserted).run_eq
      · rw [← hjoins.pos]
        exact le_start_of_run hjoins.cut.fresh ht

theorem scan_splice {text : String} {is : List Insertion}
    (hsorted : is.Pairwise fun i j => i.offset < j.offset)
    (his : ∀ i ∈ is, 0 < i.offset ∧ Admits text i) :
    Spliced 0 text.toList is (Edits.splice text 0 is).toList ∧
      scan (Edits.splice text 0 is) = weave 0 (scan text) is :=
  (run_splice 0 (.refl (start text)) rfl hsorted his).2

end Scan

end ParamThreading
