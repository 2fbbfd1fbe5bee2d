import ParamThreading.Proofs.Locality

/-!
# What tokens take of a text

The tokens at the beginning of a text take some of its characters, and tokens move along with their
text.

* `Token.shift`, `Token.scanFrom_shift`  a text further behind has the same tokens further behind;
* `Token.scanFrom_fuel`  the bound on the length of a scan does not matter;
* `Token.Takes`, `Token.lexeme_takes`  what tokens take;
* `Token.lexeme_mark_alone`, `Token.lexeme_punctuation`  punctuation is read mark by mark.
-/

namespace ParamThreading

namespace Token

/-! ## moved tokens -/

def shift (k : Nat) (t : Token) : Token :=
  ⟨t.cls, t.text, t.start + k, t.stop + k, t.lineBreak.map (· + k)⟩

section
variable (k : Nat) {lineBreak : Option Nat} {pos : Nat} {cs : List Char}

theorem shift_make (cls : TokenClass) (lineBreak : Option Nat) (pos : Nat) (cs : List Char) :
    shift k (make cls lineBreak pos cs) = make cls (lineBreak.map (· + k)) (pos + k) cs := by
  simp only [shift, make, Token.mk.injEq, true_and, and_true]
  omega

theorem stop_make (cls : TokenClass) (lineBreak : Option Nat) (pos : Nat) (cs : List Char) :
    (make cls lineBreak pos cs).stop = pos + width cs := rfl

theorem endOf_shift (pos : Nat) (ts : List Token) :
    endOf (pos + k) (ts.map (shift k)) = endOf pos ts + k := by
  unfold endOf
  rw [List.getLast?_map]
  cases ts.getLast? <;> rfl

theorem pieces_shift (n pos : Nat) (cs : List Char) :
    pieces n (pos + k) cs = ((pieces n pos cs).1.map (shift k), (pieces n pos cs).2) := by
  fun_induction pieces n pos cs with
  | case1 pos cs => rw [pieces, List.map_singleton, shift_make]; rfl
  | case2 n pos rest => rw [pieces, List.map_singleton, shift_make]; rfl
  | case3 n pos rest m hm t ts after hrec ih =>
    rw [hrec, stop_make] at ih
    rw [pieces]
    simp only [hm, stop_make, Nat.add_right_comm pos k]
    rw [ih, List.map_cons, shift_make]
    rfl
  | case4 n pos rest h =>
    rw [pieces]
    simp only [h]
    rw [List.map_singleton, shift_make]
    rfl
  | case5 n pos cs hquote hescape plain hplain =>
    rw [pieces]
    · rw [if_pos hplain, List.map_singleton, shift_make]
      rfl
    · exact hquote
    · exact hescape
  | case6 n pos cs hquote hescape plain hplain t ts after hrec ih =>
    rw [hrec, stop_make] at ih
    rw [pieces]
    · rw [if_neg hplain]
      simp only [stop_make, Nat.add_right_comm pos k]
      rw [ih, List.map_cons, shift_make]
      rfl
    · exact hquote
    · exact hescape

theorem lexeme_shift (lineBreak : Option Nat) (pos : Nat) (cs : List Char) :
    lexeme (lineBreak.map (· + k)) (pos + k) cs =
      ((lexeme lineBreak pos cs).1.map (shift k), (lexeme lineBreak pos cs).2) := by
  cases cs with
  | nil => rfl
  | cons c cs =>
    cases opening c cs with
    | single h => rw [lexeme_single h, lexeme_single h, List.map_singleton, shift_make]
    | quoted hc =>
      rw [hc, lexeme_quoted, lexeme_quoted, Nat.add_right_comm pos k, pieces_shift, List.map_cons,
        shift_make]
    | raw hc hcs hbody =>
      rw [hc, hcs, lexeme_raw hbody, lexeme_raw hbody]
      simp only [List.map_cons, List.map_nil, shift_make]
      rw [Nat.add_right_comm pos k, Nat.add_right_comm (pos + 1) k]
      rfl
    | stray h => rw [h, h, List.map_singleton, shift_make]

theorem scanFrom_shift (n : Nat) (lineBreak : Option Nat) (pos : Nat) (cs : List Char) :
    scanFrom n (lineBreak.map (· + k)) (pos + k) cs =
      (scanFrom n lineBreak pos cs).map (shift k) := by
  fun_induction scanFrom n lineBreak pos cs with
  | case1 lineBreak pos cs => rw [scanFrom, List.map_singleton, shift_make]
  | case2 n lineBreak pos => rw [scanFrom, List.map_singleton, shift_make]
  | case3 n lineBreak pos c cs hspace ih =>
    rw [← ih, scanFrom, if_pos hspace, Nat.add_right_comm pos k]
    congr 1
    split
    · cases lineBreak <;> rfl
    · rfl
  | case4 n lineBreak pos c cs hspace after hafter skipped ih =>
    rw [← ih, scanFrom, if_neg hspace]
    simp only [hafter, Nat.add_right_comm pos k]
    rfl
  | case5 n lineBreak pos c cs hspace hafter ts after hts ih =>
    have hend := endOf_shift k pos ts
    unfold endOf at hend
    rw [scanFrom, if_neg hspace]
    simp only [hafter, lexeme_shift, hts]
    rw [hend, List.map_append, ← ih]
    rfl

end

/-! ## enough fuel -/

theorem length_pieces (n pos : Nat) (cs : List Char) : (pieces n pos cs).2.length ≤ cs.length := by
  fun_induction pieces n pos cs with
  | case1 => exact Nat.zero_le _
  | case2 => exact Nat.le_succ _
  | case3 n pos rest k hk t ts after hrec ih =>
    rw [hrec, List.length_drop] at ih
    rw [List.length_cons]
    exact Nat.le_trans ih (by omega)
  | case4 => exact Nat.zero_le _
  | case5 => exact Nat.zero_le _
  | case6 n pos cs _ _ plain hplain t ts after hrec ih =>
    rw [hrec, List.length_drop] at ih
    exact Nat.le_trans ih (Nat.sub_le ..)

theorem length_lexeme (lineBreak : Option Nat) (pos : Nat) (c : Char) (cs : List Char) :
    (lexeme lineBreak pos (c :: cs)).2.length ≤ cs.length := by
  cases opening c cs with
  | single h =>
    have hpos := h.pos
    rw [lexeme_single h, List.length_drop, List.length_cons]
    omega
  | quoted hc =>
    rw [hc, lexeme_quoted]
    exact length_pieces ..
  | @raw body after hc hcs hbody =>
    rw [hc, hcs, lexeme_raw hbody, List.length_append, List.length_cons]
    exact Nat.le_add_left_of_le (Nat.le_succ _)
  | stray h =>
    rw [h]
    exact Nat.zero_le _

theorem scanFrom_fuel {n m : Nat} {lineBreak : Option Nat} {pos : Nat} {cs : List Char}
    (hn : cs.length < n) (hm : cs.length < m) :
    scanFrom n lineBreak pos cs = scanFrom m lineBreak pos cs := by
  induction n generalizing m lineBreak pos cs with
  | zero => exact absurd hn (Nat.not_lt_zero _)
  | succ n ih =>
    obtain ⟨m, rfl⟩ : ∃ l, m = l + 1 := Nat.exists_eq_add_of_le' (Nat.zero_lt_of_lt hm)
    cases cs with
    | nil => rfl
    | cons c cs =>
      rw [List.length_cons] at hn hm
      by_cases hspace : isSpace c = true
      · rw [scanFrom, scanFrom, if_pos hspace, if_pos hspace]
        exact ih (by omega) (by omega)
      rw [scanFrom, scanFrom, if_neg hspace, if_neg hspace]
      cases hafter : afterComment (c :: cs) with
      | some after =>
        have hlen := length_afterComment hafter
        rw [List.length_cons] at hlen
        exact ih (by omega) (by omega)
      | none =>
        have hlen := length_lexeme lineBreak pos c cs
        dsimp only
        rw [ih (m := m) (by omega) (by omega)]

/-! ## what a token takes -/

/-- The tokens take the characters up to what is left, and begin among them. -/
def Takes (pos : Nat) (cs : List Char) (ts : List Token) (after : List Char) : Prop :=
  ∃ taken, taken ≠ [] ∧ cs = taken ++ after ∧ endOf pos ts = pos + width taken ∧
    ∀ t ∈ ts, t.start < endOf pos ts

section
variable {cls : TokenClass} {lineBreak : Option Nat} {pos : Nat} {cs taken rest after : List Char}
  {ts : List Token}

theorem Takes.single (htaken : taken ≠ []) (hcs : cs = taken ++ after) :
    Takes pos cs [make cls lineBreak pos taken] after := by
  refine ⟨taken, htaken, hcs, rfl, fun t ht => ?_⟩
  rw [List.mem_singleton.mp ht]
  exact Nat.lt_add_of_pos_right (width_pos htaken)

theorem Takes.cons (htaken : taken ≠ []) (hcs : cs = taken ++ rest)
    (h : Takes (pos + width taken) rest ts after) :
    Takes pos cs (make cls lineBreak pos taken :: ts) after := by
  obtain ⟨taken', -, rfl, hend, hstart⟩ := h
  refine ⟨taken ++ taken', by simp [htaken], by rw [hcs, List.append_assoc], ?_, fun t ht => ?_⟩
  · rw [endOf_cons, stop_make, hend, width_append, Nat.add_assoc]
  · rw [endOf_cons, stop_make]
    rcases List.mem_cons.mp ht with rfl | ht
    · have hpos := width_pos htaken
      show pos < _
      omega
    · exact hstart t ht

theorem Takes.take {n : Nat} (hn : 0 < n) (hcs : cs ≠ []) :
    Takes pos cs [make cls lineBreak pos (cs.take n)] (cs.drop n) := by
  refine .single ?_ (List.take_append_drop n cs).symm
  rw [ne_eq, List.take_eq_nil_iff, not_or]
  exact ⟨Nat.ne_of_gt hn, hcs⟩

theorem pieces_takes (n pos : Nat) (cs : List Char) (hts : Sound (pieces n pos cs).1) :
    Takes pos cs (pieces n pos cs).1 (pieces n pos cs).2 := by
  fun_induction pieces n pos cs with
  | case1 pos cs => exact absurd hts (not_sound_stray _ _ _)
  | case2 n pos rest => exact .single (List.cons_ne_nil _ _) rfl
  | case3 n pos rest k hk t ts after hrec ih =>
    rw [hrec] at ih
    refine .cons (List.cons_ne_nil _ _) ?_ (ih hts.cons)
    rw [List.cons_append, List.take_append_drop]
  | case4 n pos rest => exact absurd hts (not_sound_stray _ _ _)
  | case5 n pos cs => exact absurd hts (not_sound_stray _ _ _)
  | case6 n pos cs _ _ plain hplain t ts after hrec ih =>
    rw [hrec] at ih
    have hne : plain ≠ [] := fun h => hplain (by rw [h]; rfl)
    refine .cons hne ?_ (ih hts.cons)
    exact List.prefix_iff_eq_append.mp (List.takeWhile_prefix _) |>.symm

theorem pieces_not_mark (n pos : Nat) (cs : List Char) :
    ∀ t ∈ (pieces n pos cs).1, t.cls ≠ .mark := by
  fun_induction pieces n pos cs with
  | case3 n pos rest k hk t ts after hrec ih =>
    rw [hrec] at ih
    exact List.forall_mem_cons.mpr ⟨by rintro ⟨⟩, ih⟩
  | case6 n pos cs _ _ plain hplain t ts after hrec ih =>
    rw [hrec] at ih
    exact List.forall_mem_cons.mpr ⟨by rintro ⟨⟩, ih⟩
  | case1 | case2 | case4 | case5 => exact List.forall_mem_singleton.mpr (by rintro ⟨⟩)

theorem raw_takes {body : List Char} (hcs : cs = body ++ '`' :: after) :
    Takes pos ('`' :: cs) [make .quote lineBreak pos ['`'], make .raw none (pos + 1) body,
      make .quote none (pos + 1 + width body) ['`']] after := by
  have hquote : width ['`'] = 1 := rfl
  refine ⟨'`' :: body ++ ['`'], nofun, ?_, ?_, ?_⟩
  · rw [hcs, List.append_assoc]
    rfl
  · show pos + 1 + width body + 1 = pos + width ('`' :: (body ++ ['`']))
    rw [width_cons, width_append, hquote, show '`'.utf8Size = 1 from rfl]
    omega
  · intro t ht
    show t.start < pos + 1 + width body + 1
    simp only [List.mem_cons, List.not_mem_nil, or_false] at ht
    rcases ht with rfl | rfl | rfl <;> simp only [make] <;> omega

theorem lexeme_takes (lineBreak : Option Nat) (pos : Nat) {cs : List Char} (hcs : cs ≠ [])
    (hts : Sound (lexeme lineBreak pos cs).1) :
    Takes pos cs (lexeme lineBreak pos cs).1 (lexeme lineBreak pos cs).2 := by
  obtain ⟨c, cs, rfl⟩ := List.exists_cons_of_ne_nil hcs
  cases opening c cs with
  | single h =>
    rw [lexeme_single h]
    exact .take h.pos hcs
  | quoted hc =>
    rw [hc, lexeme_quoted] at hts ⊢
    exact .cons nofun rfl (pieces_takes _ _ _ hts.cons)
  | raw hc hrest hbody =>
    rw [hc, hrest, lexeme_raw hbody]
    exact raw_takes rfl
  | stray h =>
    rw [h] at hts
    exact absurd hts (not_sound_stray _ _ _)

theorem lexeme_mark_alone (lineBreak : Option Nat) (pos : Nat) {c : Char}
    {cs : List Char} {t : Token}
    (ht : t ∈ (lexeme lineBreak pos (c :: cs)).1) (hmark : t.cls = .mark) :
    lexeme lineBreak pos (c :: cs) = ([make .mark lineBreak pos [c]], cs) := by
  cases opening c cs with
  | single h =>
    rw [lexeme_single h] at ht ⊢
    rw [List.mem_singleton.mp ht] at hmark
    cases h with
    | mark => rfl
    | @number form _ _ _ => cases form <;> cases hmark
    | word | rune => cases hmark
  | quoted hc =>
    rw [hc, lexeme_quoted] at ht
    rcases List.mem_cons.mp ht with rfl | ht
    · cases hmark
    · exact absurd hmark (pieces_not_mark _ _ _ t ht)
  | raw hc hcs hbody =>
    rw [hc, hcs, lexeme_raw hbody] at ht
    simp only [List.mem_cons, List.not_mem_nil, or_false] at ht
    rcases ht with rfl | rfl | rfl <;> cases hmark
  | stray h =>
    rw [h] at ht
    rw [List.mem_singleton.mp ht] at hmark
    cases hmark

end

theorem pieces_eq_nil (n pos : Nat) (cs : List Char) (h : ¬Sound (pieces n pos cs).1) :
    (pieces n pos cs).2 = [] := by
  have hcons : ∀ {t : Token} {ts : List Token}, ¬Sound (t :: ts) → t.cls = .stray ∨ ¬Sound ts := by
    intro t ts h
    by_contra hor
    rw [not_or, not_not] at hor
    exact h (List.forall_mem_cons.mpr hor)
  fun_induction pieces n pos cs with
  | case1 | case4 | case5 => rfl
  | case2 n pos rest => exact absurd (List.forall_mem_singleton.mpr (by rintro ⟨⟩)) h
  | case3 n pos rest k hk t ts after hrec ih =>
    rw [hrec] at ih
    exact ih ((hcons h).resolve_left (by rintro ⟨⟩))
  | case6 n pos cs _ _ plain hplain t ts after hrec ih =>
    rw [hrec] at ih
    exact ih ((hcons h).resolve_left (by rintro ⟨⟩))

theorem lexeme_eq_nil (lineBreak : Option Nat) (pos : Nat) (cs : List Char)
    (h : ¬Sound (lexeme lineBreak pos cs).1) : (lexeme lineBreak pos cs).2 = [] := by
  cases cs with
  | nil => rfl
  | cons c cs =>
    cases opening c cs with
    | single hsingle =>
      rw [lexeme_single hsingle] at h
      exact (h (List.forall_mem_singleton.mpr hsingle.ne_stray)).elim
    | quoted hc =>
      rw [hc, lexeme_quoted] at h ⊢
      exact pieces_eq_nil _ _ _ fun hts => h (List.forall_mem_cons.mpr ⟨nofun, hts⟩)
    | raw hc hcs hbody =>
      rw [hc, hcs, lexeme_raw hbody] at h
      refine absurd (fun t ht => ?_) h
      simp only [List.mem_cons, List.not_mem_nil, or_false] at ht
      rcases ht with rfl | rfl | rfl <;> exact nofun
    | stray hstray => rw [hstray]

def punctuation : List Char := ['(', ')', ',', '/', '*']

theorem lexeme_punctuation {c : Char} (hc : c ∈ punctuation) (lineBreak : Option Nat) (pos : Nat)
    (cs : List Char) : lexeme lineBreak pos (c :: cs) = ([make .mark lineBreak pos [c]], cs) := by
  have hfacts :
      (punctuation.all fun c => !Identifier.isStart c && !c.isDigit && c != '.' && c != '"' &&
      c != '`' && c != '\'' && isMark c) = true := by decide +kernel
  have hfact := List.all_eq_true.mp hfacts c hc
  simp only [Bool.and_eq_true, Bool.not_eq_true', bne_iff_ne] at hfact
  obtain ⟨⟨⟨⟨⟨⟨hstart, hdigit⟩, hdot⟩, hquote⟩, hraw⟩, hrune⟩, hmark⟩ := hfact
  simp [lexeme, Number.longest, hstart, hdigit, hdot, hquote, hraw, hrune, hmark]

theorem beginsComment_cons_cons (c d : Char) (cs cs' : List Char) :
    beginsComment (c :: d :: cs) = beginsComment (c :: d :: cs') := by
  by_cases hc : c = '/'
  · subst hc
    rfl
  · rw [beginsComment_of_ne hc, beginsComment_of_ne hc]

theorem opens_of_beginsComment {cs : List Char} (h : beginsComment cs = true)
    (hnone : afterComment cs = none) : ∃ rest, cs = '/' :: '*' :: rest := by
  unfold beginsComment at h
  split at h
  case h_1 c rest =>
    rcases (Bool.or_eq_true _ _).mp h with hc | hc
    · rw [eq_of_beq hc] at hnone
      cases hnone
    · obtain rfl := eq_of_beq hc
      exact ⟨rest, rfl⟩
  case h_2 => cases h

theorem exists_cons_of_afterComment {cs after : List Char} (h : afterComment cs = some after) :
    ∃ rest, cs = '/' :: rest := by
  unfold afterComment at h
  split at h
  · exact ⟨_, rfl⟩
  · exact ⟨_, rfl⟩
  · cases h

end Token

end ParamThreading
