import Mathlib.Data.String.Basic
import ParamThreading.Proofs.Lists
import ParamThreading.Syntax.Token

/-!
# Tokens in the order of the text

Tokens stand one behind the other in the text, with line breaks between them, and each of them is a
part of the text.

* `Number.longest_pos`  a number has a first digit;
* `Token.opening`  what a text begins with, by the class of its first token;
* `Token.Chained`  tokens in order between two offsets;
* `Token.LiesIn`  a token that is a part of a text;
* `Token.scan_chained`, `Token.scan_liesIn`  the tokens of a text are such.
-/

namespace ParamThreading

/-! ## numbers take characters away -/

namespace Number

/-- A recogniser that leaves less text than it is given. -/
def Consumes (f : List Char → Option (List Char)) : Prop :=
  ∀ cs rest, f cs = some rest → rest.length < cs.length

theorem length_moreDigits (p : Char → Bool) (cs : List Char) :
    (moreDigits p cs).length ≤ cs.length := by
  fun_induction moreDigits p cs with
  | case1 c rest _ ih => exact Nat.le_succ_of_le ih
  | case2 d rest' _ _ ih => simp only [List.length_cons] at ih ⊢; omega
  | case3 => exact Nat.le_refl _
  | case4 => exact Nat.le_refl _
  | case5 => exact Nat.le_refl _

theorem digits_consumes (p : Char → Bool) : Consumes (digits p) := by
  intro cs rest h
  unfold digits at h
  split at h
  · split at h
    · cases h
      exact Nat.lt_succ_of_le (length_moreDigits p _)
    · cases h
  · cases h

theorem paddedDigits_consumes (p : Char → Bool) : Consumes (paddedDigits p) := by
  intro cs rest h
  unfold paddedDigits at h
  split at h
  · exact Nat.lt_succ_of_lt (digits_consumes p _ _ h)
  · exact digits_consumes p _ _ h

theorem oneOf_consumes (a b : Char) : Consumes (oneOf a b) := by
  intro cs rest h
  unfold oneOf at h
  split at h
  · split at h
    · cases h
      exact Nat.lt_succ_self _
    · cases h
  · cases h

theorem Consumes.getD {f : List Char → Option (List Char)} (hf : Consumes f) (cs : List Char) :
    ((f cs).getD cs).length ≤ cs.length := by
  cases h : f cs with
  | none => exact Nat.le_refl _
  | some rest => exact Nat.le_of_lt (hf cs rest h)

theorem Consumes.bind {f g : List Char → Option (List Char)} (hf : Consumes f) (hg : Consumes g) :
    Consumes fun cs => (f cs).bind g := by
  intro cs rest h
  obtain ⟨mid, hmid, h⟩ := Option.bind_eq_some_iff.mp h
  exact (hg mid rest h).trans (hf cs mid hmid)

theorem exponent_consumes (a b : Char) : Consumes (exponent a b) := by
  intro cs rest h
  obtain ⟨mid, hmid, h⟩ := Option.bind_eq_some_iff.mp h
  have h₁ := oneOf_consumes a b _ _ hmid
  have h₂ := digits_consumes _ _ _ h
  have h₃ := (oneOf_consumes '+' '-').getD mid
  omega

theorem longer_eq_some {a b : Option (List Char)} {rest : List Char}
    (h : longer a b = some rest) : a = some rest ∨ b = some rest := by
  cases a with
  | none => exact .inr h
  | some x =>
    cases b with
    | none => exact .inl h
    | some y =>
      by_cases hlt : y.length < x.length
      · rw [longer, if_pos hlt] at h
        exact .inr h
      · rw [longer, if_neg hlt] at h
        exact .inl h

theorem int_consumes : Consumes int := by
  intro cs rest h
  unfold int at h
  split at h
  case h_1 body =>
    -- every form of a number that begins with a zero leaves at most what follows the zero
    have hmarked : ∀ {a b : Char} {p : Char → Bool},
        (oneOf a b body).bind (paddedDigits p) = some rest → rest.length ≤ body.length :=
      fun h => Nat.le_of_lt ((oneOf_consumes _ _).bind (paddedDigits_consumes _) _ _ h)
    have hbody : rest.length ≤ body.length := by
      rcases longer_eq_some h with hzero | h
      · cases hzero
        exact Nat.le_refl _
      rcases longer_eq_some h with hbinary | h
      · exact hmarked hbinary
      rcases longer_eq_some h with hoctal | hhex
      · have hlt := paddedDigits_consumes _ _ _ hoctal
        exact (Nat.le_of_lt hlt).trans ((oneOf_consumes 'o' 'O').getD body)
      · exact hmarked hhex
    exact Nat.lt_succ_of_le hbody
  case h_2 => exact digits_consumes _ _ _ h

theorem hexMantissa_consumes : Consumes hexMantissa := by
  intro cs rest h
  unfold hexMantissa at h
  split at h
  case h_1 => exact Nat.lt_succ_of_lt (digits_consumes _ _ _ h)
  case h_2 =>
    obtain ⟨mid, hmid, h⟩ := Option.bind_eq_some_iff.mp h
    have hlt := paddedDigits_consumes _ _ _ hmid
    split at h
    case h_1 tail =>
      cases h
      exact Nat.lt_of_le_of_lt ((digits_consumes isHexDigit).getD tail) (Nat.lt_of_succ_lt hlt)
    case h_2 =>
      cases h
      exact hlt

theorem float_consumes : Consumes float := by
  intro cs rest h
  have hexponent := (exponent_consumes 'e' 'E').getD
  rcases longer_eq_some h with hdecimal | hhex
  · split at hdecimal
    case h_1 =>
      obtain ⟨mid, hmid, rfl⟩ := Option.map_eq_some_iff.mp hdecimal
      exact Nat.lt_succ_of_le ((hexponent mid).trans (Nat.le_of_lt (digits_consumes _ _ _ hmid)))
    case h_2 =>
      obtain ⟨mid, hmid, hdecimal⟩ := Option.bind_eq_some_iff.mp hdecimal
      have hlt := digits_consumes _ _ _ hmid
      split at hdecimal
      case h_1 tail =>
        cases hdecimal
        have htail := (digits_consumes Char.isDigit).getD tail
        exact Nat.lt_of_le_of_lt ((hexponent _).trans htail) (Nat.lt_of_succ_lt hlt)
      case h_2 => exact (exponent_consumes _ _ _ _ hdecimal).trans hlt
  · split at hhex
    case h_1 =>
      have hmantissa := hexMantissa_consumes.bind (exponent_consumes 'p' 'P')
      exact Nat.lt_succ_of_lt ((oneOf_consumes 'x' 'X').bind hmantissa _ _ hhex)
    case h_2 => cases hhex

theorem imaginary_consumes : Consumes imaginary := by
  intro cs rest h
  have hunit : ∀ {f : List Char → Option (List Char)}, Consumes f →
      (f cs).bind (oneOf 'i' 'i') = some rest → rest.length < cs.length := fun hf =>
    hf.bind (oneOf_consumes 'i' 'i') cs rest
  rcases longer_eq_some h with h | h
  · exact hunit (digits_consumes _) h
  · exact (longer_eq_some h).elim (hunit int_consumes) (hunit float_consumes)

theorem found_pos {f : List Char → Option (List Char)} (hf : Consumes f) {cs : List Char} {s : Form}
    {x : Form × Nat} (h : found cs s (f cs) = some x) : 0 < x.2 := by
  obtain ⟨rest, hrest, rfl⟩ := Option.map_eq_some_iff.mp h
  exact Nat.sub_pos_of_lt (hf _ _ hrest)

theorem better_eq_some {a b : Option (Form × Nat)} {x : Form × Nat} (h : better a b = some x) :
    a = some x ∨ b = some x := by
  cases a with
  | none => exact .inr h
  | some y =>
    cases b with
    | none => exact .inl h
    | some z =>
      by_cases hlt : y.2 < z.2
      · rw [better, if_pos hlt] at h
        exact .inr h
      · rw [better, if_neg hlt] at h
        exact .inl h

/-- The longest number is found in one of the three forms. -/
theorem longest_eq_some {cs : List Char} {x : Form × Nat} (h : longest cs = some x) :
    found cs .int (int cs) = some x ∨ found cs .float (float cs) = some x ∨
      found cs .imaginary (imaginary cs) = some x := by
  cases cs with
  | nil => cases h
  | cons c cs =>
    obtain ⟨-, h⟩ := Option.ite_none_right_eq_some.mp h
    exact (better_eq_some h).imp_right better_eq_some

theorem longest_pos {cs : List Char} {x : Form × Nat} (h : longest cs = some x) : 0 < x.2 := by
  rcases longest_eq_some h with h | h | h
  · exact found_pos int_consumes h
  · exact found_pos float_consumes h
  · exact found_pos imaginary_consumes h

theorem longest_eq_none {c : Char} (h : (c.isDigit || c == '.') = false) (cs : List Char) :
    longest (c :: cs) = none := by
  simp [longest, h]

end Number

def TokenClass.ofForm : Number.Form → TokenClass
  | .int => .int
  | .float => .float
  | .imaginary => .imaginary

/-- Tokens of these classes cover at least one byte. -/
def TokenClass.isSolid : TokenClass → Bool
  | .raw | .stray | .finish => false
  | _ => true

namespace Token

/-! ## what a text begins with -/

/-- The text begins with a single token, of a class and of so many characters. -/
inductive Single (c : Char) (rest : List Char) : TokenClass → Nat → Prop
  | word (hword : Identifier.isStart c = true) :
      Single c rest .word (1 + (rest.takeWhile Identifier.isContinue).length)
  | number {form : Number.Form} {n : Nat} (hword : Identifier.isStart c = false)
      (hnumber : Number.longest (c :: rest) = some (form, n)) : Single c rest (.ofForm form) n
  | rune {n : Nat} (hc : c = '\'') (hrune : runeLength (c :: rest) = some n) :
      Single c rest .rune n
  | mark (hword : Identifier.isStart c = false) (hnumber : Number.longest (c :: rest) = none)
      (hmark : isMark c = true) : Single c rest .mark 1

section
variable {lineBreak : Option Nat} {pos : Nat} {c : Char} {rest : List Char}

theorem lexeme_single {cls : TokenClass} {n : Nat} (h : Single c rest cls n) :
    lexeme lineBreak pos (c :: rest) =
      ([make cls lineBreak pos ((c :: rest).take n)], (c :: rest).drop n) := by
  cases h with
  | word hword => rw [lexeme, if_pos hword]
  | @number form _ hword hnumber =>
    rw [lexeme, if_neg (by simp [hword]), hnumber]
    cases form <;> rfl
  | rune hc hrune =>
    subst hc
    have hword : Identifier.isStart '\'' = false := by decide +kernel
    simp [lexeme, hword, Number.longest_eq_none, hrune]
  | mark hword hnumber hmark =>
    have hother : c ≠ '"' ∧ c ≠ '`' ∧ c ≠ '\'' := by
      refine ⟨?_, ?_, ?_⟩ <;> rintro rfl <;> exact absurd hmark (by decide)
    simp [lexeme, hword, hnumber, hmark, hother]

theorem lexeme_quoted : lexeme lineBreak pos ('"' :: rest) =
    (make .quote lineBreak pos ['"'] :: (pieces (rest.length + 1) (pos + 1) rest).1,
      (pieces (rest.length + 1) (pos + 1) rest).2) := by
  have hword : Identifier.isStart '"' = false := by decide +kernel
  simp [lexeme, hword, Number.longest_eq_none]

theorem lexeme_raw {body after : List Char} (hbody : ∀ d ∈ body, (d != '`') = true) :
    lexeme lineBreak pos ('`' :: (body ++ '`' :: after)) =
      ([make .quote lineBreak pos ['`'], make .raw none (pos + 1) body,
        make .quote none (pos + 1 + width body) ['`']], after) := by
  have hword : Identifier.isStart '`' = false := by decide +kernel
  have htake : (body ++ '`' :: after).takeWhile (· != '`') = body := by
    rw [List.takeWhile_append_of_pos hbody, List.takeWhile_cons_of_neg (by decide), List.append_nil]
  simp only [lexeme, hword, htake, List.drop_left]
  rfl

end

/-- What a text begins with. No token begins with a string or a rune that does not end. -/
inductive Opening (c : Char) (rest : List Char) : Prop
  | single {cls : TokenClass} {n : Nat} (h : Single c rest cls n)
  | quoted (hc : c = '"')
  | raw {body after : List Char} (hc : c = '`') (hrest : rest = body ++ '`' :: after)
      (hbody : ∀ d ∈ body, (d != '`') = true)
  | stray (h : ∀ lineBreak pos,
      lexeme lineBreak pos (c :: rest) = ([make .stray lineBreak pos []], []))

theorem opening (c : Char) (rest : List Char) : Opening c rest := by
  by_cases hword : Identifier.isStart c = true
  · exact .single (.word hword)
  rw [Bool.not_eq_true] at hword
  cases hnumber : Number.longest (c :: rest) with
  | some found =>
    obtain ⟨form, n⟩ := found
    exact .single (.number hword hnumber)
  | none =>
    by_cases hquote : c = '"'
    · exact .quoted hquote
    by_cases hraw : c = '`'
    · subst hraw
      cases hafter : rest.drop (rest.takeWhile (· != '`')).length with
      | nil =>
        refine .stray fun lineBreak pos => ?_
        simp [lexeme, hword, hnumber, hafter]
      | cons q after =>
        obtain rfl : q = '`' := by simpa using takeWhile_ends hafter
        have hrest : rest = rest.takeWhile (· != '`') ++ '`' :: after := by
          rw [← hafter]
          exact (List.prefix_iff_eq_append.mp (List.takeWhile_prefix _)).symm
        exact .raw rfl hrest fun d hd => List.mem_takeWhile_imp (p := (· != '`')) hd
    by_cases hrune : c = '\''
    · subst hrune
      cases hlength : runeLength ('\'' :: rest) with
      | some n => exact .single (.rune rfl hlength)
      | none =>
        refine .stray fun lineBreak pos => ?_
        simp [lexeme, hword, hnumber, hlength]
    by_cases hmark : isMark c = true
    · exact .single (.mark hword hnumber hmark)
    · refine .stray fun lineBreak pos => ?_
      simp [lexeme, hword, hnumber, hquote, hraw, hrune, hmark]

theorem runeLength_pos {cs : List Char} {n : Nat} (h : runeLength cs = some n) : 0 < n := by
  unfold runeLength at h
  split at h
  all_goals first | cases h | (split at h <;> cases h; exact Nat.succ_pos _)

theorem Single.pos {c : Char} {rest : List Char} {cls : TokenClass} {n : Nat}
    (h : Single c rest cls n) : 0 < n := by
  cases h with
  | word => omega
  | number _ hnumber => exact Number.longest_pos hnumber
  | rune _ hrune => exact runeLength_pos hrune
  | mark => exact Nat.one_pos

theorem Single.ne_stray {c : Char} {rest : List Char} {cls : TokenClass} {n : Nat}
    (h : Single c rest cls n) : cls ≠ .stray := by
  cases h with
  | @number form _ _ _ => cases form <;> exact nofun
  | word | rune | mark => exact nofun

/-! ## widths -/

theorem width_eq_utf8Len (cs : List Char) : width cs = String.utf8Len cs := by
  induction cs with
  | nil => rfl
  | cons c cs ih => rw [String.utf8Len_cons, ← ih, Nat.add_comm]; rfl

theorem width_toList (s : String) : width s.toList = s.utf8ByteSize := by
  rw [width_eq_utf8Len, ← String.utf8ByteSize_ofList, String.ofList_toList]

theorem width_cons (c : Char) (cs : List Char) : width (c :: cs) = c.utf8Size + width cs := rfl

theorem width_append (cs cs' : List Char) : width (cs ++ cs') = width cs + width cs' := by
  rw [width_eq_utf8Len, String.utf8Len_append, ← width_eq_utf8Len, ← width_eq_utf8Len]

theorem width_pos {cs : List Char} (h : cs ≠ []) : 0 < width cs := by
  cases cs with
  | nil => exact absurd rfl h
  | cons c cs =>
    have := c.utf8Size_pos
    rw [width_cons]
    omega

/-! ## tokens in order -/

/-- The tokens lie one behind the other between two offsets, with the line breaks between them. -/
def Chained (hi : Nat) : Nat → List Token → Prop
  | lo, [] => lo ≤ hi
  | lo, t :: ts =>
    (∀ a, t.lineBreak = some a → lo ≤ a ∧ a < t.start) ∧ lo ≤ t.start ∧ t.start ≤ t.stop ∧
      (t.cls.isSolid → t.start < t.stop) ∧ Chained hi t.stop ts

theorem Chained.weaken {hi lo lo' : Nat} {ts : List Token} (h : Chained hi lo ts) (hlo : lo' ≤ lo) :
    Chained hi lo' ts := by
  cases ts with
  | nil => exact Nat.le_trans hlo h
  | cons t ts =>
    obtain ⟨hbreak, hstart, hrest⟩ := h
    refine ⟨fun a ha => ?_, Nat.le_trans hlo hstart, hrest⟩
    exact ⟨Nat.le_trans hlo (hbreak a ha).1, (hbreak a ha).2⟩

theorem Chained.relax {hi hi' lo : Nat} {ts : List Token} (h : Chained hi lo ts) (hhi : hi ≤ hi') :
    Chained hi' lo ts := by
  induction ts generalizing lo with
  | nil => exact Nat.le_trans h hhi
  | cons t ts ih => exact ⟨h.1, h.2.1, h.2.2.1, h.2.2.2.1, ih h.2.2.2.2⟩

theorem Chained.append {hi mid lo : Nat} {ts ts' : List Token} (h : Chained mid lo ts)
    (h' : Chained hi mid ts') : Chained hi lo (ts ++ ts') := by
  induction ts generalizing lo with
  | nil => exact h'.weaken h
  | cons t ts ih => exact ⟨h.1, h.2.1, h.2.2.1, h.2.2.2.1, ih h.2.2.2.2⟩

def endOf (pos : Nat) (ts : List Token) : Nat :=
  (ts.getLast?.map Token.stop).getD pos

theorem endOf_cons (pos : Nat) (t : Token) (ts : List Token) :
    endOf pos (t :: ts) = endOf t.stop ts := by
  unfold endOf
  rw [List.getLast?_cons]
  cases ts.getLast? <;> rfl

/-- The token is a part of a text that starts at an offset. -/
def LiesIn (pos : Nat) (cs : List Char) (t : Token) : Prop :=
  ∃ pre mid post, cs = pre ++ mid ++ post ∧ t.start = pos + width pre ∧ t.text = String.ofList mid ∧
    t.stop = t.start + width mid

theorem LiesIn.make (cls : TokenClass) (lineBreak : Option Nat) (pos : Nat) (mid post : List Char) :
    LiesIn pos (mid ++ post) (make cls lineBreak pos mid) :=
  ⟨[], mid, post, rfl, rfl, rfl, rfl⟩

theorem LiesIn.behind {pos : Nat} {taken skipped after : List Char} {t : Token}
    (h : LiesIn (pos + width taken) after t) (hafter : after <+: skipped) :
    LiesIn pos (taken ++ skipped) t := by
  obtain ⟨pre, mid, post, rfl, hstart, htext, hstop⟩ := h
  obtain ⟨more, rfl⟩ := hafter
  refine ⟨taken ++ pre, mid, post ++ more, by simp only [List.append_assoc], ?_, htext, hstop⟩
  rw [hstart, width_append, Nat.add_assoc]

/-- Tokens in order that are cut off the front of a text. What is left may be less than what follows
them. -/
structure Splits (lo pos : Nat) (cs : List Char) (cut : List Token × List Char) : Prop where
  chained : Chained (endOf pos cut.1) lo cut.1
  lies : ∀ t ∈ cut.1, LiesIn pos cs t
  left : ∃ taken skipped, cs = taken ++ skipped ∧ cut.2 <+: skipped ∧
    endOf pos cut.1 = pos + width taken

theorem Splits.le {lo pos : Nat} {cs : List Char} {cut : List Token × List Char}
    (h : Splits lo pos cs cut) : endOf pos cut.1 + width cut.2 ≤ pos + width cs := by
  obtain ⟨taken, _, rfl, ⟨more, rfl⟩, hend⟩ := h.left
  rw [hend, width_append, width_append]
  omega

section
variable {cls : TokenClass} {lineBreak : Option Nat} {lo pos : Nat} {cs : List Char}

theorem Splits.cons {n : Nat} {ts : List Token} {after : List Char} (hlo : lo ≤ pos)
    (hbreak : ∀ a, lineBreak = some a → lo ≤ a ∧ a < pos) (hcs : cls.isSolid → cs.take n ≠ [])
    (h : Splits (make cls lineBreak pos (cs.take n)).stop (make cls lineBreak pos (cs.take n)).stop
      (cs.drop n) (ts, after)) :
    Splits lo pos cs (make cls lineBreak pos (cs.take n) :: ts, after) := by
  have hstop : (make cls lineBreak pos (cs.take n)).stop = pos + width (cs.take n) := rfl
  have hcs' := List.take_append_drop n cs
  rw [hstop] at h
  obtain ⟨taken, skipped, hdrop, hafter, hend⟩ := h.left
  refine ⟨⟨hbreak, hlo, Nat.le_add_right .., fun h => ?_, ?_⟩,
    List.forall_mem_cons.mpr ⟨?_, fun t ht => ?_⟩, cs.take n ++ taken, skipped, ?_, hafter, ?_⟩
  · exact Nat.lt_add_of_pos_right (width_pos (hcs h))
  · rw [endOf_cons]
    exact h.chained
  · have hmake := LiesIn.make cls lineBreak pos (cs.take n) (cs.drop n)
    rwa [hcs'] at hmake
  · have ht := (h.lies t ht).behind List.prefix_rfl
    rwa [hcs'] at ht
  · rw [List.append_assoc, ← hdrop, hcs']
  · rw [endOf_cons, hstop, hend, width_append, Nat.add_assoc]

theorem Splits.nil (pos : Nat) (cs : List Char) : Splits pos pos cs ([], cs) :=
  ⟨Nat.le_refl _, nofun, [], cs, rfl, List.prefix_rfl, rfl⟩

theorem Splits.single (n : Nat) (hlo : lo ≤ pos)
    (hbreak : ∀ a, lineBreak = some a → lo ≤ a ∧ a < pos) (hcs : cls.isSolid → cs.take n ≠ []) :
    Splits lo pos cs ([make cls lineBreak pos (cs.take n)], cs.drop n) :=
  .cons hlo hbreak hcs (.nil ..)

theorem Splits.stray (cs : List Char) (hlo : lo ≤ pos)
    (hbreak : ∀ a, lineBreak = some a → lo ≤ a ∧ a < pos) :
    Splits lo pos cs ([make .stray lineBreak pos []], []) :=
  ⟨⟨hbreak, hlo, Nat.le_refl _, nofun, Nat.le_refl _⟩,
    List.forall_mem_singleton.mpr (.make .stray lineBreak pos [] cs), [], cs, rfl,
      List.nil_prefix, rfl⟩

end

theorem pieces_splits (n pos : Nat) (cs : List Char) : Splits pos pos cs (pieces n pos cs) := by
  have hnone : ∀ pos a : Nat, (none : Option Nat) = some a → pos ≤ a ∧ a < pos := nofun
  fun_induction pieces n pos cs with
  | case1 pos cs => exact .stray cs (Nat.le_refl _) (hnone _)
  | case2 n pos rest => exact .single 1 (Nat.le_refl _) (hnone _) nofun
  | case3 n pos rest k _ t ts after hts ih =>
    rw [hts] at ih
    exact .cons (n := k + 1) (Nat.le_refl _) (hnone _) nofun ih
  | case4 n pos rest => exact .stray _ (Nat.le_refl _) (hnone _)
  | case5 n pos cs => exact .stray cs (Nat.le_refl _) (hnone _)
  | case6 n pos cs _ _ plain hplain t ts after hts ih =>
    rw [hts] at ih
    have hp : cs.take plain.length = plain :=
      List.prefix_iff_eq_take.mp (List.takeWhile_prefix _) |>.symm
    have hne : plain ≠ [] := fun h => hplain (by rw [h]; rfl)
    have hcut : Splits pos pos cs (make .piece none pos (cs.take plain.length) :: ts, after) :=
      .cons (Nat.le_refl _) (hnone _) (fun _ => by rw [hp]; exact hne) (by rw [hp]; exact ih)
    rwa [hp] at hcut

theorem raw_splits {lineBreak : Option Nat} {lo pos : Nat} {rest body after : List Char}
    (hlo : lo ≤ pos) (hbreak : ∀ a, lineBreak = some a → lo ≤ a ∧ a < pos)
    (hrest : rest = body ++ '`' :: after) :
    Splits lo pos ('`' :: rest) ([make .quote lineBreak pos ['`'], make .raw none (pos + 1) body,
      make .quote none (pos + 1 + width body) ['`']], after) := by
  have hnone : ∀ pos a : Nat, (none : Option Nat) = some a → pos ≤ a ∧ a < pos := nofun
  have hclosing : Splits (pos + 1 + width body) (pos + 1 + width body) ('`' :: after)
      ([make .quote none (pos + 1 + width body) ['`']], after) :=
    .single 1 (Nat.le_refl _) (hnone _) fun _ => List.cons_ne_nil _ _
  have hbody : Splits (pos + 1) (pos + 1) rest ([make .raw none (pos + 1) body,
      make .quote none (pos + 1 + width body) ['`']], after) := by
    have htake : rest.take body.length = body := by rw [hrest, List.take_left]
    have hcut : Splits (pos + 1) (pos + 1) rest (make .raw none (pos + 1) (rest.take body.length) ::
        [make .quote none (pos + 1 + width body) ['`']], after) := by
      refine .cons (Nat.le_refl _) (hnone _) nofun ?_
      rw [htake, hrest, List.drop_left]
      exact hclosing
    rwa [htake] at hcut
  exact .cons (n := 1) hlo hbreak (fun _ => List.cons_ne_nil _ _) hbody

theorem lexeme_splits {lineBreak : Option Nat} {lo pos : Nat} {cs : List Char} (hlo : lo ≤ pos)
    (hbreak : ∀ a, lineBreak = some a → lo ≤ a ∧ a < pos) :
    Splits lo pos cs (lexeme lineBreak pos cs) := by
  cases cs with
  | nil => exact ⟨hlo, nofun, [], [], rfl, List.prefix_rfl, rfl⟩
  | cons c rest =>
    cases opening c rest with
    | @single cls n h =>
      rw [lexeme_single h]
      refine .single n hlo hbreak fun _ => ?_
      rw [ne_eq, List.take_eq_nil_iff]
      exact not_or.mpr ⟨Nat.ne_of_gt h.pos, List.cons_ne_nil _ _⟩
    | quoted hc =>
      rw [hc, lexeme_quoted]
      exact .cons (n := 1) hlo hbreak nofun (pieces_splits (rest.length + 1) (pos + 1) rest)
    | raw hc hrest hbody =>
      rw [hc, hrest, lexeme_raw hbody]
      exact raw_splits hlo hbreak rfl
    | stray h =>
      rw [h]
      exact .stray _ hlo hbreak

/-! ## the scan -/

theorem afterBlockComment_suffix {cs rest : List Char} (h : afterBlockComment cs = some rest) :
    rest <:+ cs := by
  fun_induction afterBlockComment cs with
  | case1 => cases h; exact ⟨['*', '/'], rfl⟩
  | case2 c cs _ ih => exact (ih h).trans (List.suffix_cons ..)
  | case3 => cases h

theorem afterComment_suffix {cs rest : List Char} (h : afterComment cs = some rest) :
    rest <:+ cs := by
  unfold afterComment at h
  split at h
  · cases h
    exact (List.dropWhile_suffix _).trans ⟨['/', '/'], rfl⟩
  · exact (afterBlockComment_suffix h).trans ⟨['/', '*'], rfl⟩
  · cases h

/-- The tokens from an offset on: they stand in order, and are parts of the text. -/
theorem scanFrom_reads (n : Nat) (lineBreak : Option Nat) (lo pos : Nat) (cs : List Char)
    (hlo : lo ≤ pos) (hbreak : ∀ a, lineBreak = some a → lo ≤ a ∧ a < pos) :
    Chained (pos + width cs) lo (scanFrom n lineBreak pos cs) ∧
      ∀ t ∈ scanFrom n lineBreak pos cs, LiesIn pos cs t := by
  have hfinish : ∀ {lo lineBreak pos} {cs : List Char}, lo ≤ pos →
      (∀ a, lineBreak = some a → lo ≤ a ∧ a < pos) →
      Chained (pos + width cs) lo [make .finish lineBreak pos []] ∧
        ∀ t ∈ [make .finish lineBreak pos []], LiesIn pos cs t := fun hlo hbreak =>
    ⟨⟨hbreak, hlo, Nat.le_refl _, nofun, Nat.le_add_right ..⟩,
      List.forall_mem_singleton.mpr (.make .finish _ _ [] _)⟩
  fun_induction scanFrom n lineBreak pos cs generalizing lo with
  | case1 => exact hfinish hlo hbreak
  | case2 => exact hfinish hlo hbreak
  | case3 n lineBreak pos c rest hspace ih =>
    rw [width_cons, ← Nat.add_assoc]
    have hc := c.utf8Size_pos
    have hrest := ih lo (by omega) fun a ha => ?_
    · refine ⟨hrest.1, fun t ht => ?_⟩
      have hlies : LiesIn (pos + width [c]) rest t := hrest.2 t ht
      exact hlies.behind List.prefix_rfl
    · have hold : lineBreak = some a → lo ≤ a ∧ a < pos + c.utf8Size := fun h =>
        ⟨(hbreak a h).1, Nat.lt_add_right _ (hbreak a h).2⟩
      split at ha
      · cases hb : lineBreak with
        | none => rw [hb] at ha; cases ha; exact ⟨hlo, Nat.lt_add_of_pos_right hc⟩
        | some b => rw [hb] at ha hold; exact hold ha
      · exact hold ha
  | case4 n lineBreak pos c rest _ after hafter skipped ih =>
    -- what is skipped and what is left make up the text
    have htext : skipped ++ after = c :: rest := by
      rw [List.suffix_iff_eq_drop.mp (afterComment_suffix hafter)]
      exact List.take_append_drop _ _
    have hrest := ih lo (Nat.le_trans hlo (Nat.le_add_right ..)) fun a ha =>
      ⟨(hbreak a ha).1, Nat.lt_of_lt_of_le (hbreak a ha).2 (Nat.le_add_right ..)⟩
    rw [← htext, width_append, ← Nat.add_assoc]
    exact ⟨hrest.1, fun t ht => (hrest.2 t ht).behind List.prefix_rfl⟩
  | case5 n lineBreak pos c rest _ _ ts after hts ih =>
    have hcut : Splits lo pos (c :: rest) (lexeme lineBreak pos (c :: rest)) :=
      lexeme_splits hlo hbreak
    rw [hts] at hcut
    have hrest := ih _ (Nat.le_refl _) nofun
    refine ⟨hcut.chained.append (hrest.1.relax hcut.le), fun t ht => ?_⟩
    rcases List.mem_append.mp ht with ht | ht
    · exact hcut.lies t ht
    · obtain ⟨taken, skipped, htext, hafter, hend⟩ := hcut.left
      have hlies := hrest.2 t ht
      rw [show (ts.getLast?.map Token.stop).getD pos = pos + width taken from hend] at hlies
      rw [htext]
      exact hlies.behind hafter

theorem scanFrom_chained (n : Nat) (lineBreak : Option Nat) (lo pos : Nat) (cs : List Char)
    (hlo : lo ≤ pos) (hbreak : ∀ a, lineBreak = some a → lo ≤ a ∧ a < pos) :
    Chained (pos + width cs) lo (scanFrom n lineBreak pos cs) :=
  (scanFrom_reads n lineBreak lo pos cs hlo hbreak).1

theorem scan_chained (text : String) : Chained text.utf8ByteSize 0 (scan text) := by
  have h := scanFrom_chained (text.toList.length + 1) none 0 0 text.toList (Nat.le_refl _) nofun
  rwa [Nat.zero_add, width_toList] at h

theorem scan_liesIn {text : String} {t : Token} (ht : t ∈ scan text) : LiesIn 0 text.toList t :=
  (scanFrom_reads (text.toList.length + 1) none 0 0 text.toList (Nat.le_refl _) nofun).2 t ht

end Token

end ParamThreading
