import ParamThreading.Edit.Element
import ParamThreading.Proofs.Scanning

/-!
# The tokens of a new list element

Its name is a word and its type is made of whole tokens, so that they are read in the same way
wherever the element is put; the comma and the blanks around it do not touch them. If the element
gets a line of its own, the text before the first element of the list is repeated in front of it,
and must not be more than blanks and comments.

* `Token.isWord`, `Token.isWhole`  names and types;
* `Scan.Readable`  characters that are read as certain tokens, whatever follows;
* `Scan.readable_element`  the text of a new first element.
-/

namespace ParamThreading

namespace Token

def isWord (text : String) : Bool :=
  text.toList.head?.any Identifier.isStart && text.toList.tail.all Identifier.isContinue

/-- The tokens of a text without the end of the text. -/
def tokensOf (text : String) : List Token := (scan text).dropLast

/-- The text is made of tokens, the last of which ends with it and is no slash. -/
def isWhole (text : String) : Bool :=
  closed (scan text) && (scan text).all (·.cls != .stray) &&
    (tokensOf text).getLast?.any (·.stop == text.utf8ByteSize) && text.toList.getLast? != some '/'

/-- What a token is without its place. -/
def face (t : Token) : TokenClass × String := (t.cls, t.text)

theorem map_face_shift (k : Nat) (ts : List Token) : (ts.map (shift k)).map face = ts.map face := by
  rw [List.map_map]
  rfl

/-- Blanks and block comments on one line. -/
inductive Blank : List Char → Prop where
  | nil : Blank []
  | space {c : Char} {cs : List Char} : isSpace c = true → c ≠ '\n' → Blank cs → Blank (c :: cs)
  | comment {body cs : List Char} : afterBlockComment body = some [] → Blank cs →
      Blank ('/' :: '*' :: body ++ cs)

end Token

namespace Scan

open Token

/-- At an offset the characters are read as tokens, whatever follows them that fits. -/
def Readable (lineBreak : Option Nat) (pos : Nat) (cs : List Char) (fits : List Char → Prop)
    (ts : List Token) (lineBreak' : Option Nat) : Prop :=
  ∀ rest, fits rest → Steps ⟨lineBreak, pos, cs ++ rest⟩ ts ⟨lineBreak', pos + width cs, rest⟩

section
variable {lineBreak lineBreak' lineBreak'' : Option Nat} {pos : Nat} {cs cs' : List Char}
  {fits fits' : List Char → Prop} {ts ts' : List Token}

theorem Readable.append (h : Readable lineBreak pos cs fits ts lineBreak')
    (h' : Readable lineBreak' (pos + width cs) cs' fits' ts' lineBreak'')
    (hfits : ∀ rest, fits' rest → fits (cs' ++ rest)) :
    Readable lineBreak pos (cs ++ cs') fits' (ts ++ ts') lineBreak'' := by
  intro rest hrest
  rw [List.append_assoc, width_append, ← Nat.add_assoc]
  exact (h _ (hfits rest hrest)).trans (h' rest hrest)

theorem Readable.mono (h : Readable lineBreak pos cs fits ts lineBreak')
    (hfits : ∀ rest, fits' rest → fits rest) : Readable lineBreak pos cs fits' ts lineBreak' :=
  fun rest hrest => h rest (hfits rest hrest)

theorem Readable.shift (k : Nat) (h : Readable lineBreak pos cs fits ts lineBreak') :
    Readable (lineBreak.map (· + k)) (pos + k) cs fits (ts.map (Token.shift k))
      (lineBreak'.map (· + k)) := by
  intro rest hrest
  rw [Nat.add_right_comm]
  exact (h rest hrest).shift k

theorem Readable.tokensOf_eq {text : String} (h : Readable none 0 text.toList fits ts none)
    (hnil : fits []) : tokensOf text = ts := by
  have hsteps := h [] hnil
  rw [List.append_nil] at hsteps
  have hrun : scan text = ts ++ run ⟨none, 0 + width text.toList, []⟩ := hsteps.run_eq
  rw [tokensOf, hrun, run_nil rfl, List.dropLast_concat]

theorem readable_space {c : Char} (h : isSpace c = true) (hne : c ≠ '\n') :
    Readable lineBreak pos [c] (fun _ => True) [] lineBreak := by
  intro rest _
  have hstep : Step ⟨lineBreak, pos, c :: rest⟩ [] _ := .space rfl h
  rw [if_neg (by simpa using hne)] at hstep
  exact hstep.steps

theorem readable_newline : Readable none pos ['\n'] (fun _ => True) [] (some pos) := by
  intro rest _
  have hstep : Step ⟨none, pos, '\n' :: rest⟩ [] _ := .space rfl (by decide)
  exact hstep.steps

theorem readable_mark {c : Char} (hc : c ∈ punctuation) (hslash : c ≠ '/') :
    Readable lineBreak pos [c] (fun _ => True) [make .mark lineBreak pos [c]] none := by
  intro rest _
  have hspaces : (punctuation.all fun c => !isSpace c) = true := by decide
  have hspace : isSpace c = false := eq_false_of_all hspaces c hc
  have hstep : Step ⟨lineBreak, pos, c :: rest⟩ [make .mark lineBreak pos [c]] _ :=
    .token rfl hspace (beginsComment_of_ne hslash _) (lexeme_punctuation hc ..)
      (List.forall_mem_singleton.mpr nofun)
  exact hstep.steps

theorem readable_blank (h : Blank cs) : Readable lineBreak pos cs (fun _ => True) [] lineBreak := by
  induction h generalizing pos with
  | nil => exact fun rest _ => .refl _
  | @space c cs hspace hne _ ih =>
    exact (readable_space hspace hne).append ih fun _ _ => trivial
  | @comment body cs hbody _ ih =>
    have hcomment : Readable lineBreak pos ('/' :: '*' :: body) (fun _ => True) [] lineBreak := by
      intro rest _
      have hbody' : afterBlockComment (body ++ []) = some ([] ++ []) := by
        rw [List.append_nil]
        exact hbody
      have hafter : afterBlockComment (body ++ rest) = some rest :=
        afterBlockComment_exchange rest hbody'
      have hstep : Step ⟨lineBreak, pos, '/' :: '*' :: body ++ rest⟩ [] _ := .comment rfl hafter
      exact hstep.steps
    exact hcomment.append ih fun _ _ => trivial

theorem isStart_of_stop : ∀ c ∈ stops, Identifier.isStart c = false :=
  eq_false_of_all (by decide +kernel)

theorem readable_word {name : String} (h : isWord name = true) (lineBreak : Option Nat)
    (pos : Nat) :
    Readable lineBreak pos name.toList Stopped [make .word lineBreak pos name.toList] none := by
  simp only [isWord, Bool.and_eq_true, Option.any_eq_true, List.all_eq_true] at h
  obtain ⟨⟨c, hc, hstart⟩, hcontinue⟩ := h
  generalize name.toList = cs at hc hcontinue
  cases cs with
  | nil => cases hc
  | cons d cs =>
    cases hc
    have hstop : c ∉ stops := by
      intro hmem
      rw [isStart_of_stop c hmem] at hstart
      cases hstart
    have hspace : isSpace c = false := by
      cases hspace : isSpace c with
      | false => rfl
      | true => exact absurd (mem_stops_of_isSpace hspace) hstop
    have hslash : c ≠ '/' := by
      rintro rfl
      exact hstop (by decide)
    intro rest hrest
    have htake : (cs ++ rest).takeWhile Identifier.isContinue = cs := by
      rw [takeWhile_append_of_stopped isContinue_of_stop hrest]
      exact List.takeWhile_eq_self_iff.mpr hcontinue
    have hlexeme : lexeme lineBreak pos (c :: (cs ++ rest)) =
        ([make .word lineBreak pos (c :: cs)], rest) := by
      simp only [lexeme, hstart, if_true, htake]
      rw [Nat.add_comm 1, List.take_succ_cons, List.drop_succ_cons, List.take_left, List.drop_left]
    have hstep : Step ⟨lineBreak, pos, c :: cs ++ rest⟩ [make .word lineBreak pos (c :: cs)] _ :=
      .token rfl hspace (beginsComment_of_ne hslash _) hlexeme
        (List.forall_mem_singleton.mpr (by rintro ⟨⟩))
    exact hstep.steps

theorem readable_whole {text : String} (h : isWhole text = true) (pos : Nat) :
    Readable none pos text.toList Stopped ((tokensOf text).map (Token.shift pos)) none := by
  simp only [isWhole, Bool.and_eq_true, List.all_eq_true, bne_iff_ne, ne_eq, Option.any_eq_true,
    beq_iff_eq] at h
  obtain ⟨⟨⟨hclosed, hsound⟩, u, hu, hstop⟩, hslash⟩ := h
  obtain ⟨us, e, hsteps, he⟩ := exists_steps_end (s := start text) hclosed hsound
  have hus : tokensOf text = us := by
    rw [tokensOf, ← run_start, hsteps.run_eq, run_nil he, List.dropLast_concat]
  rw [hus] at hu ⊢
  have hne : us ≠ [] := by
    rintro rfl
    cases hu
  obtain ⟨vs, m, ts, c, rfl, hvs, hstep, hts, hblank⟩ := hsteps.exists_last hne
  -- nothing stands behind the last token
  have hpos : c.pos = text.utf8ByteSize := by
    rw [List.getLast?_append_of_ne_nil _ hts] at hu
    rw [(hstep.reads hts).2, endOf, hu, Option.map_some, Option.getD_some, hstop]
  have hchars : c.chars = [] := by
    obtain ⟨taken, htaken, hend, -⟩ := hsteps.passes
    obtain ⟨blank, hblank, hend', -⟩ := hblank.passes
    have hwidth : width taken = text.utf8ByteSize := by
      rw [← width_toList, show text.toList = taken ++ e.chars from htaken, he, List.append_nil]
    have hstart : (start text).pos = 0 := rfl
    by_contra hne
    have hpositive : 0 < width blank := width_pos fun hnil => hne (by rw [hblank, hnil, he]; rfl)
    omega
  obtain ⟨taken, last, htext, hlast, hexchange⟩ :=
    hvs.exchange_behind hstep hts (by rw [hchars]; exact .nil)
  have htext : text.toList = taken ++ last := by rwa [hchars, List.append_nil] at htext
  have hend : last.getLast? ≠ some '/' := by
    rwa [htext, List.getLast?_append_of_ne_nil _ hlast] at hslash
  have hreadable : Readable none 0 text.toList Stopped (vs ++ ts) none := by
    intro rest hrest
    have hsteps' := hexchange rest hrest fun h => absurd h hend
    rw [← htext, withChars, withChars, (hstep.reads hts).1, hpos, ← width_toList] at hsteps'
    rw [Nat.zero_add]
    exact hsteps'
  have hshift := hreadable.shift pos
  rwa [Nat.zero_add] at hshift

/-! ## list elements -/

/-- An item that is read as tokens with the given faces wherever it stands before a stop. -/
def ReadableItem (item : String) (faces : List (TokenClass × String)) : Prop :=
  ∀ lineBreak pos, ∃ ts, Readable lineBreak pos item.toList Stopped ts none ∧ ts.map face = faces

theorem face_make (cls : TokenClass) (lineBreak : Option Nat) (pos : Nat) (text : String) :
    (make cls lineBreak pos text.toList).face = (cls, text) := by
  rw [face, make, String.ofList_toList]

theorem readableItem_name {name : String} (hname : isWord name = true) :
    ReadableItem name [(.word, name)] := by
  intro lineBreak pos
  refine ⟨_, readable_word hname lineBreak pos, ?_⟩
  rw [List.map_singleton, face_make]

theorem readableItem_parameter {name type : String} (hname : isWord name = true)
    (htype : isWhole type = true) :
    ReadableItem (name ++ " " ++ type) ((.word, name) :: (tokensOf type).map face) := by
  intro lineBreak pos
  have hspace : Readable none (pos + width name.toList) " ".toList (fun _ => True) [] none :=
    readable_space rfl (by decide)
  have hword := (readable_word hname lineBreak pos).append hspace
    fun _ _ => Stopped.cons (by decide) _
  have hboth := hword.append (readable_whole htype _) fun _ _ => trivial
  rw [← String.toList_append, ← String.toList_append] at hboth
  refine ⟨_, hboth, ?_⟩
  rw [List.append_nil, List.map_append, List.map_singleton, face_make, map_face_shift]
  rfl

theorem readable_element {source : SourceFile} {item : String} {list : Node}
    {faces : List (TokenClass × String)} (hitem : ReadableItem item faces)
    (hblank : ∀ first, list.codeChildren.head? = some first →
      (source.lines.position list.start).line < (source.lines.position first.start).line →
      Blank (indentation source.text first.start).toList) :
    ∃ ts, Readable none 0
        (elementText source item list list.codeChildren.head? list.codeChildren.isEmpty).toList
        (fun rest => list.codeChildren = [] → Stopped rest) ts none ∧
      ts.map face = faces ++ (if list.codeChildren.isEmpty then [] else [(.mark, ",")]) := by
  have hcomma :
      ∀ pos, Readable none pos ",".toList (fun _ => True) [make .mark none pos [',']] none :=
    fun pos => readable_mark (by decide) (by decide)
  have hspace : ∀ pos, Readable none pos " ".toList (fun _ => True) [] none :=
    fun pos => readable_space rfl (by decide)
  have hstopped : ∀ rest, Stopped (",".toList ++ rest) := fun rest => .cons (by decide) rest
  unfold elementText
  cases hgiven : list.codeChildren with
  | nil =>
    obtain ⟨ts, hts, hfaces⟩ := hitem none 0
    refine ⟨ts, hts.mono fun rest hrest => hrest rfl, ?_⟩
    rw [hfaces]
    exact (List.append_nil _).symm
  | cons first others =>
    simp only [List.isEmpty_cons, List.head?_cons, Bool.false_eq_true, if_false]
    split
    case isTrue hline =>
      have hindent := hblank first (by rw [hgiven]; rfl) hline
      have hbefore : Readable none 0 ("\n".toList ++ (indentation source.text first.start).toList)
          (fun _ => True) ([] ++ []) (some 0) :=
        readable_newline.append (readable_blank hindent) fun _ _ => trivial
      obtain ⟨ts, hts, hfaces⟩ := hitem (some 0) _
      have hall := (hbefore.append hts fun _ _ => trivial).append (hcomma _) fun rest _ =>
        hstopped rest
      rw [← String.toList_append, ← String.toList_append, ← String.toList_append] at hall
      refine ⟨_, hall.mono fun _ _ => trivial, ?_⟩
      rw [List.append_nil, List.nil_append, List.map_append, hfaces]
      rfl
    case isFalse =>
      obtain ⟨ts, hts, hfaces⟩ := hitem none 0
      have hall := (hts.append (hcomma _) fun rest _ => hstopped rest).append (hspace _)
        fun _ _ => trivial
      have htext : (item ++ ", ").toList = item.toList ++ ",".toList ++ " ".toList := by
        rw [String.toList_append, List.append_assoc]
        rfl
      rw [htext]
      refine ⟨_, hall.mono fun _ _ => trivial, ?_⟩
      rw [List.append_nil, List.map_append, hfaces]
      rfl

theorem readable_behind {name : String} (hname : isWord name = true) :
    ∃ ts, Readable none 0 (", " ++ name).toList Stopped ts none ∧
      ts.map face = [(.mark, ","), (.word, name)] := by
  have hcomma : Readable none 0 [','] (fun _ => True) [make .mark none 0 [',']] none :=
    readable_mark (by decide) (by decide)
  have hspace : Readable none (0 + width [',']) [' '] (fun _ => True) [] none :=
    readable_space rfl (by decide)
  have hboth := (hcomma.append hspace fun _ _ => trivial).append (readable_word hname none _)
    fun _ _ => trivial
  rw [String.toList_append]
  refine ⟨_, hboth, ?_⟩
  rw [List.append_nil, List.map_append, List.map_singleton, List.map_singleton, face_make]
  rfl

end

end Scan

end ParamThreading
