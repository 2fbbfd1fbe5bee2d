import ParamThreading.Proofs.TokenOrder

/-!
# How far a token depends on the text behind it

Numbers and words are read as far as possible, but no further than to a blank, a parenthesis, a
comma or a slash; strings and runes end with a quote. So what stands behind such a place can be
exchanged, and the tokens before it stay as they are.

* `Token.Stopped`  texts that no number or word reaches into;
* `Number.longest_append`  numbers stop before them;
* `Token.lexeme_exchange`, `Token.afterComment_exchange`  so do all tokens, and comments with a
  token behind them.
-/

namespace ParamThreading

namespace Token

/-- The characters that no number or word goes on with: white space, parentheses, commas and
slashes. -/
def stops : List Char := ['\t', '\n', '\x0b', '\x0c', '\r', ' ', '(', ')', ',', '/', '\ufeff']

def Stopped (cs : List Char) : Prop := ∀ c, cs.head? = some c → c ∈ stops

theorem Stopped.nil : Stopped [] := nofun

theorem Stopped.cons {c : Char} (h : c ∈ stops) (cs : List Char) : Stopped (c :: cs) := by
  intro d hd
  cases hd
  exact h

theorem Stopped.of_head {cs cs' : List Char} (h : Stopped cs) (hhead : cs'.head? = cs.head?) :
    Stopped cs' := by
  intro c hc
  rw [hhead] at hc
  exact h c hc

theorem mem_stops_of_isSpace {c : Char} (h : isSpace c = true) : c ∈ stops := by
  simp only [isSpace, Bool.or_eq_true, Bool.and_eq_true, decide_eq_true_eq, beq_iff_eq] at h
  have hofNat : Char.ofNat c.toNat = c := Char.ofNat_toNat c
  rcases h with (⟨hlo, hhi⟩ | rfl) | hbom
  · have hcases : c.toNat = 9 ∨ c.toNat = 10 ∨ c.toNat = 11 ∨ c.toNat = 12 ∨
        c.toNat = 13 := by omega
    rw [← hofNat]
    rcases hcases with h | h | h | h | h <;> rw [h] <;> decide
  · decide
  · rw [← hofNat, hbom]
    decide

end Token

/-! ## numbers -/

namespace Number

open Token (Stopped stops)

variable {p : Char → Bool} {rest : List Char}

/-- A recogniser that looks no further than to a stop. -/
def Local (f : List Char → Option (List Char)) : Prop :=
  ∀ cs rest, Stopped rest → f (cs ++ rest) = (f cs).map (· ++ rest)

theorem ne_of_head {a : Char} (ha : a ∉ stops) (hrest : Stopped rest) {c : Char}
    (hc : rest.head? = some c) : c ≠ a :=
  fun h => ha (h ▸ hrest c hc)

/-- A recogniser that begins with a look at whether a character is there. -/
theorem Local.headed {f g h : List Char → Option (List Char)} {a : Char} (ha : a ∉ stops)
    (hf : Local f) (hg : Local g) (hthere : ∀ cs, h (a :: cs) = f cs)
    (hother : ∀ cs, cs.head? ≠ some a → h cs = g cs) : Local h := by
  intro cs rest hrest
  cases cs with
  | nil =>
    have hhead : rest.head? ≠ some a := fun hc => ne_of_head ha hrest hc rfl
    rw [hother [] nofun, List.nil_append, hother rest hhead]
    exact hg [] rest hrest
  | cons c cs =>
    by_cases hc : c = a
    · subst hc
      rw [List.cons_append, hthere, hthere]
      exact hf cs rest hrest
    · have hhead : ∀ cs : List Char, (c :: cs).head? ≠ some a := fun _ h => hc (Option.some.inj h)
      rw [hother (c :: cs) (hhead _), List.cons_append, hother _ (hhead _)]
      exact hg (c :: cs) rest hrest

theorem moreDigits_of_stopped (hp : ∀ c ∈ stops, p c = false) (hrest : Stopped rest) :
    moreDigits p rest = rest := by
  cases rest with
  | nil => rfl
  | cons c rest =>
    have hne : c ≠ '_' := ne_of_head (by decide) hrest rfl
    simp [moreDigits, hp c (hrest c rfl), hne]

theorem moreDigits_append (hp : ∀ c ∈ stops, p c = false) (hrest : Stopped rest) (cs : List Char) :
    moreDigits p (cs ++ rest) = moreDigits p cs ++ rest := by
  fun_induction moreDigits p cs with
  | case1 c cs hc ih =>
    rw [List.cons_append, moreDigits.eq_def]
    simpa [hc] using ih
  | case2 d cs hd hunderscore ih => simpa [moreDigits, hd, hunderscore] using ih
  | case3 d cs hd hunderscore => simp [moreDigits, hd, hunderscore]
  | case4 c cs hc hne =>
    by_cases hunderscore : c = '_'
    · subst hunderscore
      -- an underscore at the end of the text: what follows it is no digit
      cases cs with
      | cons d cs => exact (hne d cs rfl rfl).elim
      | nil =>
        cases rest with
        | nil => simp [moreDigits, hc]
        | cons d rest => simp [moreDigits, hc, hp d (hrest d rfl)]
    · simp [moreDigits, hc, hunderscore]
  | case5 => exact moreDigits_of_stopped hp hrest

theorem digits_local (hp : ∀ c ∈ stops, p c = false) : Local (digits p) := by
  intro cs rest hrest
  cases cs with
  | nil =>
    cases rest with
    | nil => rfl
    | cons c rest => simp [digits, hp c (hrest c rfl)]
  | cons c cs =>
    by_cases hc : p c = true
    · simp [digits, hc, moreDigits_append hp hrest cs]
    · simp [digits, hc]

theorem paddedDigits_local (hp : ∀ c ∈ stops, p c = false) : Local (paddedDigits p) := by
  have hdigits := digits_local hp
  refine .headed (a := '_') (by decide) hdigits hdigits (fun _ => rfl) fun cs hcs => ?_
  unfold paddedDigits
  split
  · exact absurd rfl hcs
  · rfl

theorem oneOf_local {a b : Char} (ha : a ∉ stops) (hb : b ∉ stops) : Local (oneOf a b) := by
  intro cs rest hrest
  cases cs with
  | nil =>
    cases rest with
    | nil => rfl
    | cons c rest =>
      have hca : c ≠ a := ne_of_head ha hrest rfl
      have hcb : c ≠ b := ne_of_head hb hrest rfl
      simp [oneOf, hca, hcb]
  | cons c cs =>
    by_cases hc : c = a ∨ c = b <;> simp [oneOf, hc]

theorem Local.getD {f : List Char → Option (List Char)} (hf : Local f) {cs : List Char}
    (hrest : Stopped rest) : (f (cs ++ rest)).getD (cs ++ rest) = (f cs).getD cs ++ rest := by
  rw [hf cs rest hrest]
  cases f cs <;> rfl

theorem Local.bind {f g : List Char → Option (List Char)} (hf : Local f) (hg : Local g) :
    Local fun cs => (f cs).bind g := by
  intro cs rest hrest
  show (f (cs ++ rest)).bind g = ((f cs).bind g).map (· ++ rest)
  rw [hf cs rest hrest]
  cases f cs with
  | none => rfl
  | some mid => exact hg mid rest hrest

theorem longer_append (rest : List Char) (a b : Option (List Char)) :
    longer (a.map (· ++ rest)) (b.map (· ++ rest)) = (longer a b).map (· ++ rest) := by
  cases a with
  | none => rfl
  | some x =>
    cases b with
    | none => rfl
    | some y =>
      by_cases h : y.length < x.length <;> simp [longer, h]

theorem Local.longer {f g : List Char → Option (List Char)} (hf : Local f) (hg : Local g) :
    Local fun cs => longer (f cs) (g cs) := by
  intro cs rest hrest
  show Number.longer (f (cs ++ rest)) (g (cs ++ rest)) = _
  rw [hf cs rest hrest, hg cs rest hrest, longer_append]

theorem isDigit_of_stop : ∀ c ∈ stops, c.isDigit = false := eq_false_of_all (by decide)

theorem isHexDigit_of_stop : ∀ c ∈ stops, isHexDigit c = false := eq_false_of_all (by decide)

theorem exponent_local {a b : Char} (ha : a ∉ stops) (hb : b ∉ stops) : Local (exponent a b) := by
  refine Local.bind (oneOf_local ha hb) fun cs rest hrest => ?_
  rw [Local.getD (oneOf_local (by decide) (by decide)) hrest]
  exact digits_local isDigit_of_stop _ _ hrest

theorem int_local : Local int := by
  have hbinary : Local fun cs => (oneOf 'b' 'B' cs).bind (paddedDigits isBinaryDigit) :=
    .bind (oneOf_local (by decide) (by decide)) (paddedDigits_local (eq_false_of_all (by decide)))
  have hoctal : Local fun cs => paddedDigits isOctalDigit ((oneOf 'o' 'O' cs).getD cs) := by
    intro cs rest hrest
    show paddedDigits isOctalDigit ((oneOf 'o' 'O' (cs ++ rest)).getD (cs ++ rest)) = _
    rw [Local.getD (oneOf_local (by decide) (by decide)) hrest]
    exact paddedDigits_local (eq_false_of_all (by decide)) _ _ hrest
  have hhex : Local fun cs => (oneOf 'x' 'X' cs).bind (paddedDigits isHexDigit) :=
    .bind (oneOf_local (by decide) (by decide)) (paddedDigits_local isHexDigit_of_stop)
  have hzero : Local some := fun _ _ _ => rfl
  refine .headed (a := '0') (by decide) (hzero.longer (hbinary.longer (hoctal.longer hhex)))
    (digits_local isDigit_of_stop) (fun _ => rfl) fun cs hcs => ?_
  unfold int
  split
  · exact absurd rfl hcs
  · rfl

theorem Local.ite_head {f g : List Char → Option (List Char)} {a : Char} (ha : a ∉ stops)
    (hf : Local f) (hg : Local g) :
    Local fun cs => if cs.head? = some a then f cs.tail else g cs :=
  .headed ha hf hg (fun _ => if_pos rfl) (fun _ h => if_neg h)

theorem getD_local {f : List Char → Option (List Char)} (hf : Local f) :
    Local fun cs => some ((f cs).getD cs) := by
  intro cs rest hrest
  show some ((f (cs ++ rest)).getD (cs ++ rest)) = _
  rw [hf.getD hrest]
  rfl

theorem hexMantissa_eq {cs : List Char} (h : cs.head? ≠ some '.') :
    hexMantissa cs = (paddedDigits isHexDigit cs).bind fun rest =>
      if rest.head? = some '.' then some ((digits isHexDigit rest.tail).getD rest.tail)
      else some rest := by
  rw [hexMantissa]
  · refine congrArg _ (funext fun rest => ?_)
    split
    case h_1 => rfl
    case h_2 hdot => rw [if_neg (head?_ne_some hdot)]
  · rintro rest rfl
    exact h rfl

theorem hexMantissa_local : Local hexMantissa := by
  have hdigits := digits_local isHexDigit_of_stop
  refine .headed (a := '.') (by decide) hdigits
    (.bind (paddedDigits_local isHexDigit_of_stop)
      (.ite_head (a := '.') (by decide) (getD_local hdigits) fun _ _ _ => rfl))
    (fun cs => rfl) (fun cs hcs => hexMantissa_eq hcs)

theorem float_eq (cs : List Char) :
    float cs = longer
      (if cs.head? = some '.' then
        (digits Char.isDigit cs.tail).bind fun rest => some ((exponent 'e' 'E' rest).getD rest)
      else (digits Char.isDigit cs).bind fun rest =>
        if rest.head? = some '.' then
          (some ((digits Char.isDigit rest.tail).getD rest.tail)).bind fun rest =>
            some ((exponent 'e' 'E' rest).getD rest)
        else exponent 'e' 'E' rest)
      (if cs.head? = some '0' then
        (oneOf 'x' 'X' cs.tail).bind fun rest => (hexMantissa rest).bind (exponent 'p' 'P')
      else none) := by
  simp only [float]
  congr 1
  · split
    case h_1 => exact Option.map_eq_bind
    case h_2 hdot =>
      rw [if_neg (head?_ne_some hdot)]
      refine congrArg _ (funext fun rest => ?_)
      split
      case h_1 => rfl
      case h_2 hdot => rw [if_neg (head?_ne_some hdot)]
  · split
    case h_1 => rfl
    case h_2 hzero => rw [if_neg (head?_ne_some hzero)]

theorem float_local : Local float := by
  have hdigits := digits_local isDigit_of_stop
  have hexponent : Local (exponent 'e' 'E') := exponent_local (by decide) (by decide)
  have hdecimal := Local.ite_head (a := '.') (by decide) (hdigits.bind (getD_local hexponent))
    (hdigits.bind (.ite_head (a := '.') (by decide)
      (.bind (getD_local hdigits) (getD_local hexponent)) hexponent))
  have hhex := Local.ite_head (a := '0') (by decide)
    (.bind (oneOf_local (a := 'x') (b := 'X') (by decide) (by decide))
      (hexMantissa_local.bind (exponent_local (a := 'p') (b := 'P') (by decide) (by decide))))
    (g := fun _ => none) fun _ _ _ => rfl
  rw [funext float_eq]
  exact hdecimal.longer hhex

theorem imaginary_local : Local imaginary := by
  have hunit : ∀ {f : List Char → Option (List Char)}, Local f →
      Local fun cs => (f cs).bind (oneOf 'i' 'i') := fun hf =>
    hf.bind (oneOf_local (by decide) (by decide))
  exact (hunit (digits_local isDigit_of_stop)).longer ((hunit int_local).longer (hunit float_local))

theorem found_append {f : List Char → Option (List Char)} (hf : Local f) (s : Form) (cs : List Char)
    (hrest : Stopped rest) : found (cs ++ rest) s (f (cs ++ rest)) = found cs s (f cs) := by
  rw [hf cs rest hrest]
  cases f cs with
  | none => rfl
  | some r => simp [found, Nat.add_sub_add_right]

/-- A number is found without a look at what stands behind a stop. -/
theorem longest_append (cs : List Char) (hrest : Stopped rest) :
    longest (cs ++ rest) = longest cs := by
  cases cs with
  | nil =>
    cases rest with
    | nil => rfl
    | cons c rest =>
      have hne : c ≠ '.' := ne_of_head (by decide) hrest rfl
      simp [longest, hne, isDigit_of_stop c (hrest c rfl)]
  | cons c cs =>
    have hint := found_append int_local .int (c :: cs) hrest
    have hfloat := found_append float_local .float (c :: cs) hrest
    have himaginary := found_append imaginary_local .imaginary (c :: cs) hrest
    rw [List.cons_append] at hint hfloat himaginary ⊢
    rw [longest, longest, hint, hfloat, himaginary]

theorem found_le {cs : List Char} {s : Form} {r : Option (List Char)} {x : Form × Nat}
    (h : found cs s r = some x) : x.2 ≤ cs.length := by
  obtain ⟨rest, -, rfl⟩ := Option.map_eq_some_iff.mp h
  exact Nat.sub_le ..

theorem longest_le {cs : List Char} {x : Form × Nat} (h : longest cs = some x) :
    x.2 ≤ cs.length := by
  rcases longest_eq_some h with h | h | h <;> exact found_le h

end Number

namespace Token

/-! ## escapes, strings and runes -/

section
variable {p : Char → Bool} {u v v' : List Char} {c : Char}

theorem escapeLength_pos {cs : List Char} {k : Nat} (h : escapeLength cs = some k) : 0 < k := by
  unfold escapeLength at h
  split at h
  · simp only at h
    split at h <;> cases h
    exact Nat.succ_pos _
  · split at h <;> cases h
    exact Nat.succ_pos _
  · split at h <;> cases h
    exact Nat.succ_pos _
  · split at h <;> cases h
    · omega
    · exact Nat.one_pos
  · cases h

/-- How far an escape reaches does not depend on what stands behind the character after it. -/
theorem escapeLength_exchange (v' : List Char) (h : escapeLength (u ++ c :: v) = some u.length) :
    escapeLength (u ++ c :: v') = some u.length := by
  cases u with
  | nil => exact absurd (escapeLength_pos h) (Nat.lt_irrefl 0)
  | cons d u =>
    -- the four and eight digits of a Unicode escape
    have hunicode : ∀ {n : Nat}, (if n ≤ ((u ++ c :: v).takeWhile isHex).length then
        some (n + 1) else none) = some (u.length + 1) →
        (if n ≤ ((u ++ c :: v').takeWhile isHex).length then some (n + 1) else none) =
          some (u.length + 1) := by
      intro n h
      obtain ⟨hle, h⟩ := Option.ite_none_right_eq_some.mp h
      obtain rfl : n = u.length := by simpa using h
      rw [if_pos (length_le_takeWhile (forall_of_length_le_takeWhile hle))]
    by_cases hx : d = 'x'
    · subst hx
      simp only [List.cons_append, escapeLength, List.length_cons] at h ⊢
      obtain ⟨hle, h⟩ := Option.ite_none_right_eq_some.mp h
      have hlen : ((u ++ c :: v).takeWhile isHex).length = u.length := by simpa using h
      rw [takeWhile_exchange v' (Nat.le_of_eq hlen), if_pos hle, hlen]
    by_cases hu : d = 'u'
    · subst hu
      exact hunicode h
    by_cases hU : d = 'U'
    · subst hU
      exact hunicode h
    simp only [List.cons_append, List.length_cons, escapeLength] at h ⊢
    by_cases hdigit : d.isDigit = true
    · rw [if_pos hdigit] at h ⊢
      have hlen : (((u ++ c :: v).take 2).takeWhile Char.isDigit).length = u.length := by
        simp only [Option.some.injEq] at h
        omega
      -- at most two more octal digits
      rcases u with _ | ⟨a, _ | ⟨b, u⟩⟩
      · cases hc : c.isDigit with
        | false => simp [hc]
        | true => simp [hc] at hlen
      · exact h
      · exact h
    · rw [if_neg hdigit] at h ⊢
      exact h

end

/-- None of the tokens stands for a place where no token begins. -/
def Sound (ts : List Token) : Prop := ∀ t ∈ ts, t.cls ≠ .stray

theorem Sound.cons {t : Token} {ts : List Token} (h : Sound (t :: ts)) : Sound ts :=
  fun u hu => h u (List.mem_cons_of_mem _ hu)

theorem not_sound_stray (lineBreak : Option Nat) (pos : Nat) (cs : List Char) :
    ¬Sound [make .stray lineBreak pos cs] :=
  fun h => h _ List.mem_cons_self rfl

/-- The characters of the pieces of a string. -/
def isPlain (c : Char) : Bool := c != '"' && c != '\n' && c != '\\'

theorem takeWhile_isPlain {plain rest : List Char} (hplain : ∀ c ∈ plain, isPlain c = true)
    (hrest : ∀ c, rest.head? = some c → isPlain c = false) :
    (plain ++ rest).takeWhile isPlain = plain := by
  rw [List.takeWhile_append_of_pos hplain]
  cases rest with
  | nil => exact List.append_nil _
  | cons c rest => rw [List.takeWhile_cons_of_neg (by simp [hrest c rfl]), List.append_nil]

theorem pieces_plain {n pos : Nat} {plain rest : List Char} (hne : plain ≠ [])
    (hplain : ∀ c ∈ plain, isPlain c = true)
    (hrest : ∀ c, rest.head? = some c → isPlain c = false) :
    pieces (n + 1) pos (plain ++ rest) =
      (make .piece none pos plain :: (pieces n (pos + width plain) rest).1,
        (pieces n (pos + width plain) rest).2) := by
  have htake := takeWhile_isPlain hplain hrest
  cases plain with
  | nil => exact absurd rfl hne
  | cons c plain =>
    have hc := hplain c List.mem_cons_self
    simp only [isPlain, Bool.and_eq_true, bne_iff_ne, ne_eq] at hc
    have hdrop : (c :: plain ++ rest).drop (c :: plain).length = rest := List.drop_left ..
    rw [List.cons_append] at htake hdrop ⊢
    rw [pieces]
    · unfold isPlain at htake
      simp only [htake, hdrop]
      rfl
    · exact fun rest h => hc.1.1 (List.cons.inj h).1
    · exact fun rest h => hc.2 (List.cons.inj h).1

theorem pieces_escape {n pos : Nat} {u rest : List Char}
    (h : escapeLength (u ++ rest) = some u.length) :
    pieces (n + 1) pos ('\\' :: (u ++ rest)) =
      (make .escape none pos ('\\' :: u) :: (pieces n (pos + width ('\\' :: u)) rest).1,
        (pieces n (pos + width ('\\' :: u)) rest).2) := by
  have htake : (u ++ rest).take u.length = u := List.take_left ..
  have hdrop : (u ++ rest).drop u.length = rest := List.drop_left ..
  simp only [pieces, h, htake, hdrop]
  rfl

theorem pieces_exchange (n pos : Nat) (cs : List Char) (hts : Sound (pieces n pos cs).1) :
    ∃ body, cs = body ++ (pieces n pos cs).2 ∧ body ≠ [] ∧ ∀ n' after, body.length ≤ n' →
      pieces n' pos (body ++ after) = ((pieces n pos cs).1, after) := by
  fun_induction pieces n pos cs with
  | case1 pos cs => exact absurd hts (not_sound_stray _ _ _)
  | case2 n pos rest =>
    refine ⟨['"'], rfl, List.cons_ne_nil _ _, ?_⟩
    intro n' after hn
    obtain ⟨m, rfl⟩ := Nat.exists_eq_add_of_le' hn
    rfl
  | case3 n pos rest k hk t ts after hrec ih =>
    rw [hrec] at ih
    obtain ⟨body, hbody, hne, hany⟩ := ih hts.cons
    obtain ⟨c, tail, rfl⟩ := List.exists_cons_of_ne_nil hne
    have hrest : rest = rest.take k ++ (c :: tail ++ after) := by
      rw [← hbody, List.take_append_drop]
    have hlen : (rest.take k).length = k := by
      have hpos : 0 < (rest.drop k).length := by rw [hbody]; exact Nat.succ_pos _
      rw [List.length_drop] at hpos
      exact List.length_take_of_le (by omega)
    refine ⟨'\\' :: (rest.take k ++ c :: tail), ?_, List.cons_ne_nil _ _, ?_⟩
    · rw [List.cons_append, List.append_assoc, ← hrest]
    · intro n' after' hn
      obtain ⟨m, rfl⟩ : ∃ m, n' = m + 1 :=
        Nat.exists_eq_add_of_le' (Nat.le_trans (Nat.succ_pos _) hn)
      have hescape : escapeLength (rest.take k ++ c :: (tail ++ after')) =
          some (rest.take k).length := by
        refine escapeLength_exchange (v := tail ++ after) _ ?_
        rw [hlen, ← List.cons_append, ← hrest, hk]
      have hm : (c :: tail).length ≤ m := by
        simp only [List.length_cons, List.length_append] at hn ⊢
        omega
      rw [List.cons_append, List.append_assoc, List.cons_append, pieces_escape hescape]
      rw [← List.cons_append, show pos + width ('\\' :: rest.take k) = t.stop from rfl,
        hany m after' hm]
  | case4 n pos rest => exact absurd hts (not_sound_stray _ _ _)
  | case5 n pos cs => exact absurd hts (not_sound_stray _ _ _)
  | case6 n pos cs hquote hescape plain hplain t ts after hrec ih =>
    rw [hrec] at ih
    obtain ⟨body, hbody, hne, hany⟩ := ih hts.cons
    obtain ⟨c, tail, rfl⟩ := List.exists_cons_of_ne_nil hne
    have hcs : cs = plain ++ (c :: tail ++ after) := by
      rw [← hbody]
      exact List.prefix_iff_eq_append.mp (List.takeWhile_prefix _) |>.symm
    have hall : ∀ d ∈ plain, isPlain d = true := fun d hd => List.mem_takeWhile_imp hd
    have hc : isPlain c = false := takeWhile_ends hbody
    have hplain' : plain ≠ [] := fun h => hplain (by rw [h]; rfl)
    refine ⟨plain ++ c :: tail, ?_, by simp, ?_⟩
    · rw [List.append_assoc, ← hcs]
    · intro n' after' hn
      have hpos := List.length_pos_of_ne_nil hplain'
      simp only [List.length_append] at hn
      obtain ⟨m, rfl⟩ : ∃ m, n' = m + 1 := Nat.exists_eq_add_of_le' (by omega)
      have hm : (c :: tail).length ≤ m := by omega
      rw [List.append_assoc, pieces_plain hplain' hall (by rintro d ⟨⟩; exact hc)]
      rw [show pos + width plain = t.stop from rfl, hany m after' hm]

theorem runeLength_le {cs : List Char} {n : Nat} (h : runeLength cs = some n) : n ≤ cs.length := by
  -- the digits of a Unicode escape, up to the quote behind them
  have hunicode : ∀ {m : Nat} {rest : List Char},
      ((rest.take m).all isHex && rest[m]? == some '\'') = true → m < rest.length := by
    intro m rest h
    simp only [Bool.and_eq_true, beq_iff_eq] at h
    exact (List.getElem?_eq_some_iff.mp h.2).1
  unfold runeLength at h
  split at h
  case h_2 rest =>
    obtain ⟨hdigits, h⟩ := Option.ite_none_right_eq_some.mp h
    cases h
    exact Nat.add_le_add_right (hunicode hdigits) 3
  case h_3 rest =>
    obtain ⟨hdigits, h⟩ := Option.ite_none_right_eq_some.mp h
    cases h
    exact Nat.add_le_add_right (hunicode hdigits) 3
  case h_7 => cases h
  all_goals
    obtain ⟨-, h⟩ := Option.ite_none_right_eq_some.mp h
    cases h
    simp

theorem runeLength_exchange {u v : List Char} (v' : List Char)
    (h : runeLength (u ++ v) = some u.length) : runeLength (u ++ v') = some u.length := by
  have hu : (u ++ v).take u.length = u := List.take_left ..
  generalize u ++ v = cs at h hu
  generalize u.length = n at h hu ⊢
  subst hu
  unfold runeLength at h
  split at h
  case h_1 =>
    obtain ⟨hdigits, h⟩ := Option.ite_none_right_eq_some.mp h
    cases h
    simp_all [runeLength]
  case h_2 rest =>
    obtain ⟨hdigits, h⟩ := Option.ite_none_right_eq_some.mp h
    cases h
    simp only [Bool.and_eq_true, beq_iff_eq] at hdigits
    obtain ⟨htake, hget⟩ := take_append_of_getElem? hdigits.2 v'
    simp [runeLength, htake, hget, hdigits.1]
  case h_3 rest =>
    obtain ⟨hdigits, h⟩ := Option.ite_none_right_eq_some.mp h
    cases h
    simp only [Bool.and_eq_true, beq_iff_eq] at hdigits
    obtain ⟨htake, hget⟩ := take_append_of_getElem? hdigits.2 v'
    simp [runeLength, htake, hget, hdigits.1]
  case h_4 c rest hx hu hU =>
    obtain ⟨hc, h⟩ := Option.ite_none_right_eq_some.mp h
    cases h
    have hne : c ≠ 'x' ∧ c ≠ 'u' ∧ c ≠ 'U' := by
      refine ⟨?_, ?_, ?_⟩ <;> rintro rfl <;> exact absurd hc (by decide)
    simp only [List.take, List.cons_append, List.nil_append]
    rw [runeLength, if_pos hc]
    · exact fun _ _ h _ => hne.1 h
    · exact hne.2.1
    · exact hne.2.2
  case h_5 a b c rest hx hu hU hb =>
    obtain ⟨hoctal, h⟩ := Option.ite_none_right_eq_some.mp h
    cases h
    simp only [List.take, List.cons_append, List.nil_append]
    rw [runeLength, if_pos hoctal] <;> assumption
  case h_6 c rest hescape hoctal =>
    obtain ⟨hc, h⟩ := Option.ite_none_right_eq_some.mp h
    cases h
    have hne : c ≠ '\'' ∧ c ≠ '\\' := by simpa using hc
    simp [runeLength, hne]
  case h_7 => cases h

/-! ## tokens -/

theorem isContinue_of_stop : ∀ c ∈ stops, Identifier.isContinue c = false :=
  eq_false_of_all (by decide +kernel)

section
variable {lineBreak : Option Nat} {pos : Nat} {cs rest rest' after : List Char} {ts : List Token}

theorem takeWhile_append_of_stopped {p : Char → Bool} (hp : ∀ c ∈ stops, p c = false)
    (hrest : Stopped rest) : (cs ++ rest).takeWhile p = cs.takeWhile p := by
  induction cs with
  | nil =>
    cases rest with
    | nil => rfl
    | cons c rest => simp [hp c (hrest c rfl)]
  | cons c cs ih => cases hc : p c <;> simp [hc, ih]

theorem make_take_exchange {cls : TokenClass} {n : Nat} (hn : n ≤ cs.length)
    (h : ([make cls lineBreak pos ((cs ++ rest).take n)], (cs ++ rest).drop n) =
      (ts, after ++ rest)) :
    ([make cls lineBreak pos ((cs ++ rest').take n)], (cs ++ rest').drop n) =
      (ts, after ++ rest') := by
  rw [List.take_append_of_le_length hn, List.drop_append_of_le_length hn] at h ⊢
  obtain ⟨hts, hafter⟩ := Prod.mk.inj h
  rw [hts, List.append_cancel_right hafter]

theorem quoted_exchange
    (h : pieces ((cs ++ rest).length + 1) pos (cs ++ rest) = (ts, after ++ rest)) (hts : Sound ts) :
    pieces ((cs ++ rest').length + 1) pos (cs ++ rest') = (ts, after ++ rest') := by
  obtain ⟨body, hbody, -, hany⟩ := pieces_exchange _ pos (cs ++ rest) (by rw [h]; exact hts)
  rw [h] at hbody hany
  obtain rfl : cs = body ++ after := by
    rw [← List.append_assoc] at hbody
    exact List.append_cancel_right hbody
  rw [List.append_assoc]
  exact hany _ _ (by simp only [List.length_append]; omega)

theorem rune_exchange {n : Nat} (rest' : List Char) (h : runeLength (cs ++ rest) = some n)
    (hafter : (cs ++ rest).drop n = after ++ rest) :
    n ≤ cs.length ∧ runeLength (cs ++ rest') = some n := by
  have hle := runeLength_le h
  have hlen := congrArg List.length hafter
  simp only [List.length_drop, List.length_append] at hlen hle
  have hn : n ≤ cs.length := by omega
  have htake : (cs.take n).length = n := List.length_take_of_le hn
  refine ⟨hn, ?_⟩
  have h' : runeLength (cs.take n ++ (cs.drop n ++ rest)) = some (cs.take n).length := by
    rw [← List.append_assoc, List.take_append_drop, htake, h]
  have hexchange := runeLength_exchange (cs.drop n ++ rest') h'
  rwa [← List.append_assoc, List.take_append_drop, htake] at hexchange

/-- A single token that ends before a stop does not depend on what stands there. -/
theorem Single.exchange {c : Char} {cls : TokenClass} {n : Nat} (h : Single c (cs ++ rest) cls n)
    (hafter : (c :: cs ++ rest).drop n = after ++ rest) (hrest : Stopped rest)
    (hrest' : Stopped rest') : n ≤ (c :: cs).length ∧ Single c (cs ++ rest') cls n := by
  have hnumbers : Number.longest (c :: (cs ++ rest)) = Number.longest (c :: cs) :=
    Number.longest_append (c :: cs) hrest
  have hnumbers' : Number.longest (c :: (cs ++ rest')) = Number.longest (c :: cs) :=
    Number.longest_append (c :: cs) hrest'
  cases h with
  | word hword =>
    have hsingle : Single c (cs ++ rest') .word _ := .word hword
    rw [takeWhile_append_of_stopped isContinue_of_stop hrest'] at hsingle
    rw [takeWhile_append_of_stopped isContinue_of_stop hrest]
    refine ⟨?_, hsingle⟩
    rw [Nat.add_comm]
    exact Nat.succ_le_succ (List.takeWhile_prefix _).length_le
  | number hword hnumber =>
    rw [hnumbers] at hnumber
    exact ⟨Number.longest_le hnumber, .number hword (hnumbers'.trans hnumber)⟩
  | rune hc hrune =>
    rw [← List.cons_append] at hrune
    obtain ⟨hle, hrune'⟩ := rune_exchange rest' hrune hafter
    exact ⟨hle, .rune hc hrune'⟩
  | mark hword hnumber hmark =>
    rw [hnumbers] at hnumber
    exact ⟨Nat.succ_pos _, .mark hword (hnumbers'.trans hnumber) hmark⟩

/-- The tokens that end before a stop do not depend on what stands there. -/
theorem lexeme_exchange (h : lexeme lineBreak pos (cs ++ rest) = (ts, after ++ rest))
    (hts : Sound ts) (hcs : cs ≠ []) (hrest : Stopped rest) (hrest' : Stopped rest') :
    lexeme lineBreak pos (cs ++ rest') = (ts, after ++ rest') := by
  obtain ⟨c, cs, rfl⟩ := List.exists_cons_of_ne_nil hcs
  rw [List.cons_append] at h ⊢
  cases opening c (cs ++ rest) with
  | single hsingle =>
    rw [lexeme_single hsingle] at h
    obtain ⟨hle, hsingle'⟩ := hsingle.exchange (Prod.mk.inj h).2 hrest hrest'
    rw [lexeme_single hsingle', ← List.cons_append]
    exact make_take_exchange hle h
  | quoted hc =>
    subst hc
    rw [lexeme_quoted] at h ⊢
    obtain ⟨hts', hafter⟩ := Prod.mk.inj h
    subst hts'
    rw [quoted_exchange (Prod.ext rfl hafter) hts.cons]
  | @raw body tail hc htext hbody =>
    subst hc
    rw [htext, lexeme_raw hbody] at h
    obtain ⟨rfl, rfl⟩ := Prod.mk.inj h
    obtain rfl : cs = body ++ '`' :: after := by
      rw [← List.cons_append, ← List.append_assoc] at htext
      exact List.append_cancel_right htext
    rw [List.append_assoc, List.cons_append, lexeme_raw hbody]
  | stray hstray =>
    rw [hstray] at h
    obtain ⟨rfl, -⟩ := Prod.mk.inj h
    exact absurd hts (not_sound_stray _ _ _)

/-! ## comments -/

theorem length_afterBlockComment (h : afterBlockComment cs = some after) :
    after.length + 2 ≤ cs.length := by
  fun_induction afterBlockComment cs with
  | case1 rest => cases h; exact Nat.le_refl _
  | case2 c rest _ ih => exact Nat.le_succ_of_le (ih h)
  | case3 => cases h

theorem afterBlockComment_cons {c d : Char} (h : c = '*' → d ≠ '/') (cs : List Char) :
    afterBlockComment (c :: d :: cs) = afterBlockComment (d :: cs) := by
  rw [afterBlockComment]
  rintro rest rfl heq
  exact h rfl (List.cons.inj heq).1

theorem afterBlockComment_exchange (rest' : List Char)
    (h : afterBlockComment (cs ++ rest) = some (after ++ rest)) :
    afterBlockComment (cs ++ rest') = some (after ++ rest') := by
  have hlen := length_afterBlockComment h
  simp only [List.length_append] at hlen
  fun_induction afterBlockComment cs with
  | case1 tail =>
    have htail : tail ++ rest = after ++ rest := Option.some.inj h
    rw [← List.append_cancel_right htail]
    rfl
  | case2 c tail hne ih =>
    -- the comment ends behind at least two characters, so another one follows this one
    cases tail with
    | nil => simp only [List.length_cons, List.length_nil] at hlen; omega
    | cons d tail =>
      have hnot : c = '*' → d ≠ '/' := by
        rintro rfl rfl
        exact hne tail rfl rfl
      simp only [List.cons_append] at h ih ⊢
      rw [afterBlockComment_cons hnot] at h ⊢
      have hlen' := length_afterBlockComment h
      simp only [List.length_cons, List.length_append] at hlen' ih
      exact ih h (by omega)
  | case3 => simp only [List.length_nil] at hlen; omega

def beginsComment : List Char → Bool
  | '/' :: c :: _ => c == '/' || c == '*'
  | _ => false

theorem afterComment_eq_none (h : beginsComment cs = false) : afterComment cs = none := by
  unfold afterComment
  split
  · cases h
  · cases h
  · rfl

theorem length_afterComment (h : afterComment cs = some after) : after.length + 2 ≤ cs.length := by
  unfold afterComment at h
  split at h
  · cases h
    exact Nat.add_le_add_right (List.dropWhile_suffix _).length_le 2
  · have := length_afterBlockComment h
    simp only [List.length_cons]
    omega
  · cases h

/-- A comment that is followed by something before a place does not depend on what stands there. -/
theorem afterComment_exchange (rest' : List Char)
    (h : afterComment (cs ++ rest) = some (after ++ rest)) (hafter : after ≠ []) :
    afterComment (cs ++ rest') = some (after ++ rest') := by
  have hlen := length_afterComment h
  simp only [List.length_append] at hlen
  rcases cs with _ | ⟨a, _ | ⟨b, cs⟩⟩
  · simp only [List.length_nil] at hlen; omega
  · simp only [List.length_cons, List.length_nil] at hlen; omega
  · simp only [List.cons_append] at h ⊢
    unfold afterComment at h
    split at h
    case h_1 heq =>
      obtain ⟨rfl, rfl, rfl⟩ : a = '/' ∧ b = '/' ∧ cs ++ rest = _ := by simpa using heq
      rw [afterComment, dropWhile_exchange rest' (Option.some.inj h) hafter]
    case h_2 heq =>
      obtain ⟨rfl, rfl, rfl⟩ : a = '/' ∧ b = '*' ∧ cs ++ rest = _ := by simpa using heq
      exact afterBlockComment_exchange rest' h
    case h_3 => cases h

theorem beginsComment_of_ne {c : Char} (h : c ≠ '/') (cs : List Char) :
    beginsComment (c :: cs) = false := by
  unfold beginsComment
  split
  case h_1 heq => exact absurd (List.cons.inj heq).1 h
  case h_2 => rfl

theorem beginsComment_exchange {c : Char} (h : beginsComment (c :: cs ++ rest) = false)
    (hrest' : Stopped rest') (hslash : (c :: cs).getLast? = some '/' → rest'.head? ≠ some '/') :
    beginsComment (c :: cs ++ rest') = false := by
  by_cases hc : c = '/'
  · subst hc
    cases cs with
    | cons d cs => exact h
    | nil =>
      cases rest' with
      | nil => rfl
      | cons d rest' =>
        have hd : d ≠ '/' := fun hd => hslash rfl (congrArg some hd)
        have hd' : d ≠ '*' := fun hd => absurd (hrest' d rfl) (by rw [hd]; decide)
        simp [beginsComment, hd, hd']
  · exact beginsComment_of_ne hc _

end

end Token

end ParamThreading
