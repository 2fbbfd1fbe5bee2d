import ParamThreading.Position.Descriptor

/-!
# How positions are written

The file comes first, up to the last colon, so that its name may hold colons, commas and hashes; an
offset is a hash and a number, with blanks around; of two offsets the first one is not greater. A
text of any other form is no position, and the failure shows it as it is.

* `Cut.cut?_eq_some_iff`, `Cut.cutLast?_eq_some_iff`  the parts of a text around a character;
* `Blank.exists_trim`, `Blank.trim_eq`  a text with and without the blanks around it;
* `Descriptor.SpellsOffset`, `Descriptor.SpellsRange`, `Descriptor.Spells`  the form of a position;
* `Descriptor.parse_exact`  which texts are positions, and that positions are read as they are
  printed.
-/

namespace ParamThreading

/-! ## cutting -/

namespace Cut

variable {sep : Char} {cs a b : List Char}

theorem cut?_append (h : sep ∉ a) : cut? sep (a ++ sep :: b) = some (a, b) := by
  induction a with
  | nil => simp [cut?]
  | cons c a ih =>
    obtain ⟨hc, ha⟩ := not_or.mp (mt List.mem_cons.mpr h)
    rw [List.cons_append, cut?, if_neg (Ne.symm hc), ih ha]
    rfl

theorem cut?_eq_some_iff : cut? sep cs = some (a, b) ↔ cs = a ++ sep :: b ∧ sep ∉ a := by
  constructor
  · intro h
    have hmem : sep ∈ cs := by
      rw [cut?_eq_some h]
      exact List.mem_append_right _ List.mem_cons_self
    obtain ⟨a', b', rfl, ha'⟩ := List.eq_append_cons_of_mem hmem
    cases (cut?_append ha').symm.trans h
    exact ⟨rfl, ha'⟩
  · rintro ⟨rfl, ha⟩
    exact cut?_append ha

theorem cut?_eq_none_iff : cut? sep cs = none ↔ sep ∉ cs := by
  constructor
  · intro h hmem
    obtain ⟨a, b, rfl, ha⟩ := List.eq_append_cons_of_mem hmem
    cases (cut?_append ha).symm.trans h
  · intro h
    rw [Option.eq_none_iff_forall_ne_some]
    rintro ⟨a, b⟩ hcut
    rw [cut?_eq_some hcut] at h
    exact h (List.mem_append_right _ List.mem_cons_self)

theorem cutLast?_eq_some_iff : cutLast? sep cs = some (a, b) ↔ cs = a ++ sep :: b ∧ sep ∉ b := by
  simp only [cutLast?, Option.map_eq_some_iff, Prod.exists, Prod.mk.injEq, cut?_eq_some_iff]
  constructor
  · rintro ⟨x, y, ⟨hcs, hx⟩, rfl, rfl⟩
    refine ⟨?_, by simpa using hx⟩
    rw [← List.reverse_reverse cs, hcs]
    simp
  · rintro ⟨rfl, hb⟩
    exact ⟨b.reverse, a.reverse, ⟨by simp, by simpa using hb⟩, by simp, by simp⟩

end Cut

/-! ## blanks -/

namespace Blank

variable {before body after : List Char}

theorem exists_trim (cs : List Char) : ∃ before after, cs = before ++ trim cs ++ after ∧
    (∀ c ∈ before, holds c = true) ∧ ∀ c ∈ after, holds c = true := by
  refine ⟨cs.takeWhile holds, ((cs.dropWhile holds).reverse.takeWhile holds).reverse, ?_,
    List.all_eq_true.mp List.all_takeWhile, fun c hc => ?_⟩
  · rw [trim, List.append_assoc, ← List.reverse_append, List.takeWhile_append_dropWhile,
      List.reverse_reverse, List.takeWhile_append_dropWhile]
  · exact List.all_eq_true.mp List.all_takeWhile c (List.mem_reverse.mp hc)

theorem trim_eq {first last : Char} (hbefore : ∀ c ∈ before, holds c = true)
    (hafter : ∀ c ∈ after, holds c = true) (hhead : body.head? = some first)
    (hfirst : holds first = false)
    (hend : body.getLast? = some last) (hlast : holds last = false) :
    trim (before ++ body ++ after) = body := by
  obtain ⟨rest, rfl⟩ := List.head?_eq_some_iff.mp hhead
  have hstart : (before ++ first :: rest ++ after).dropWhile holds = first :: rest ++ after := by
    rw [List.append_assoc, List.dropWhile_append_of_pos hbefore, List.cons_append,
      List.dropWhile_cons_of_neg (by simp [hfirst])]
  obtain ⟨init, hinit⟩ := List.getLast?_eq_some_iff.mp hend
  rw [trim, hstart, hinit, List.reverse_append,
    List.dropWhile_append_of_pos (by simpa using hafter),
    List.reverse_append, List.reverse_singleton, List.singleton_append,
    List.dropWhile_cons_of_neg (by simp [hlast])]
  simp

theorem holds_of_isDigit {c : Char} (h : c.isDigit = true) : holds c = false := by
  obtain ⟨hzero, hnine⟩ := Char.isDigit_iff_toNat.mp h
  have hzero : 48 ≤ c.toNat := hzero
  have hnine : c.toNat ≤ 57 := hnine
  simp only [holds, Bool.or_eq_false_iff, Bool.and_eq_false_iff, decide_eq_false_iff_not,
    beq_eq_false_iff_ne]
  omega

end Blank

/-! ## the form of a position -/

namespace Descriptor

variable {s : String} {cs : List Char} {m n : Nat} {d : Descriptor}

/-- A sequence of digits of a value below 2^64, with an optional plus sign. -/
def SpellsNumber (cs : List Char) (n : Nat) : Prop :=
  ∃ sign digits, cs = sign ++ digits ∧ (sign = [] ∨ sign = ['+']) ∧ digits ≠ [] ∧
    (∀ c ∈ digits, c.isDigit = true) ∧ Nat.ofDigitChars 10 digits 0 = n ∧ n < UInt64.size

def SpellsOffset (cs : List Char) (n : Nat) : Prop :=
  ∃ before number after, cs = before ++ ('#' :: number) ++ after ∧
    (∀ c ∈ before, Blank.holds c = true) ∧ SpellsNumber number n ∧ ∀ c ∈ after, Blank.holds c = true

/-- One offset, or two with a comma between. -/
inductive SpellsRange : List Char → Nat → Nat → Prop where
  | one {cs : List Char} {n : Nat} : SpellsOffset cs n → SpellsRange cs n n
  | two {a b : List Char} {m n : Nat} : SpellsOffset a m → SpellsOffset b n →
      SpellsRange (a ++ ',' :: b) m n

/-- A file, a colon and a range without colons whose offsets are in order. -/
structure Spells (s : String) (d : Descriptor) : Prop where
  form : ∃ range : String, s = d.path.text ++ ":" ++ range ∧ ':' ∉ range.toList ∧
    SpellsRange range.toList d.start d.stop
  file : d.path.text ≠ ""
  ordered : d.start ≤ d.stop

/-! ## numbers and offsets -/

theorem not_mem_plus {digits : List Char} (h : ∀ c ∈ digits, c.isDigit = true) :
    digits.head? ≠ some '+' := by
  intro hhead
  have hplus := h '+' (List.mem_of_mem_head? hhead)
  cases hplus

theorem number?_digits {digits : List Char} : (if !digits.isEmpty && digits.all Char.isDigit &&
    decimal digits < UInt64.size then some (decimal digits) else none) = some n ↔
    digits ≠ [] ∧ (∀ c ∈ digits, c.isDigit = true) ∧ Nat.ofDigitChars 10 digits 0 = n ∧
      n < UInt64.size := by
  have hvalue : Nat.ofDigitChars 10 digits 0 = decimal digits := rfl
  rw [Option.ite_none_right_eq_some, hvalue, Option.some.injEq]
  simp only [Bool.and_eq_true, Bool.not_eq_true', List.isEmpty_eq_false_iff, List.all_eq_true,
    decide_eq_true_eq]
  constructor
  · rintro ⟨⟨⟨hne, hdigits⟩, hlt⟩, rfl⟩
    exact ⟨hne, hdigits, rfl, hlt⟩
  · rintro ⟨hne, hdigits, rfl, hlt⟩
    exact ⟨⟨⟨hne, hdigits⟩, hlt⟩, rfl⟩

theorem number?_eq_some_iff : number? cs = some n ↔ SpellsNumber cs n := by
  rw [number?, number?_digits]
  constructor
  · intro h
    cases hplus : Cut.afterStart? ['+'] cs with
    | none => exact ⟨[], cs, rfl, .inl rfl, by simpa [hplus] using h⟩
    | some digits =>
      exact ⟨['+'], digits, Cut.afterStart?_eq_some.mp hplus, .inr rfl, by simpa [hplus] using h⟩
  · rintro ⟨sign, digits, rfl, rfl | rfl, hdigits⟩
    · -- digits do not begin with a sign
      have hplus : Cut.afterStart? ['+'] digits = none := by
        rw [Option.eq_none_iff_forall_ne_some]
        intro rest hrest
        rw [Cut.afterStart?_eq_some.mp hrest] at hdigits
        exact not_mem_plus hdigits.2.1 rfl
      rwa [List.nil_append, hplus]
    · rwa [Cut.afterStart?_eq_some.mpr rfl]

theorem SpellsNumber.getLast? (h : SpellsNumber cs n) :
    ∃ last, cs.getLast? = some last ∧ last.isDigit = true := by
  obtain ⟨sign, digits, rfl, -, hne, hdigits, -⟩ := h
  refine ⟨digits.getLast hne, ?_, hdigits _ (List.getLast_mem hne)⟩
  rw [List.getLast?_append, List.getLast?_eq_some_getLast hne, Option.some_or]

theorem offset?_eq_some_iff : offset? cs = some n ↔ SpellsOffset cs n := by
  rw [offset?, Option.bind_eq_some_iff]
  constructor
  · rintro ⟨number, hnumber, hn⟩
    obtain ⟨before, after, hcs, hbefore, hafter⟩ := Blank.exists_trim cs
    rw [Cut.afterStart?_eq_some.mp hnumber] at hcs
    exact ⟨before, number, after, hcs, hbefore, number?_eq_some_iff.mp hn, hafter⟩
  · rintro ⟨before, number, after, rfl, hbefore, hnumber, hafter⟩
    obtain ⟨last, hlast, hdigit⟩ := hnumber.getLast?
    have hend : ('#' :: number).getLast? = some last := by
      rw [List.getLast?_cons, hlast]
      rfl
    have htrim : Blank.trim (before ++ ('#' :: number) ++ after) = '#' :: number :=
      Blank.trim_eq hbefore hafter rfl (by decide) hend (Blank.holds_of_isDigit hdigit)
    refine ⟨number, ?_, number?_eq_some_iff.mpr hnumber⟩
    rw [htrim]
    exact Cut.afterStart?_eq_some.mpr rfl

/-! ## ranges and positions -/

theorem SpellsOffset.mem {c : Char} (h : SpellsOffset cs n) (hc : c ∈ cs) :
    Blank.holds c = true ∨ c = '#' ∨ c = '+' ∨ c.isDigit = true := by
  obtain ⟨before, number, after, rfl, hbefore, ⟨sign, digits, rfl, hsign, -, hdigits, -⟩, hafter⟩ :=
    h
  rcases List.mem_append.mp hc with hc | hc
  · rcases List.mem_append.mp hc with hc | hc
    · exact .inl (hbefore c hc)
    · rcases List.mem_cons.mp hc with rfl | hc
      · exact .inr (.inl rfl)
      · rcases List.mem_append.mp hc with hc | hc
        · rcases hsign with rfl | rfl
          · cases hc
          · exact .inr (.inr (.inl (List.mem_singleton.mp hc)))
        · exact .inr (.inr (.inr (hdigits c hc)))
  · exact .inl (hafter c hc)

theorem SpellsOffset.comma_not_mem (h : SpellsOffset cs n) : ',' ∉ cs :=
  fun hc => absurd (h.mem hc) (by decide)

theorem SpellsOffset.colon_not_mem (h : SpellsOffset cs n) : ':' ∉ cs :=
  fun hc => absurd (h.mem hc) (by decide)

theorem range?_eq_some_iff : range? cs = some (m, n) ↔ SpellsRange cs m n := by
  unfold range?
  constructor
  · intro h
    split at h
    case h_1 a b hcut =>
      obtain ⟨rfl, -⟩ := Cut.cut?_eq_some_iff.mp hcut
      obtain ⟨m', hm, h⟩ := Option.bind_eq_some_iff.mp h
      obtain ⟨n', hn, h⟩ := Option.bind_eq_some_iff.mp h
      cases h
      exact .two (offset?_eq_some_iff.mp hm) (offset?_eq_some_iff.mp hn)
    case h_2 =>
      obtain ⟨n', hn, h⟩ := Option.map_eq_some_iff.mp h
      cases h
      exact .one (offset?_eq_some_iff.mp hn)
  · intro h
    cases h with
    | one h => rw [Cut.cut?_eq_none_iff.mpr h.comma_not_mem, offset?_eq_some_iff.mpr h]; rfl
    | two hm hn =>
      rw [Cut.cut?_append hm.comma_not_mem]
      simp only [offset?_eq_some_iff.mpr hm, offset?_eq_some_iff.mpr hn]
      rfl

theorem parse?_eq_some_iff : parse? s = some d ↔ Spells s d := by
  unfold parse?
  constructor
  · intro h
    obtain ⟨⟨file, range⟩, hcut, h⟩ := Option.bind_eq_some_iff.mp h
    obtain ⟨hs, hcolon⟩ := Cut.cutLast?_eq_some_iff.mp hcut
    dsimp only at h
    by_cases hfile : file.isEmpty = true
    · rw [if_pos hfile] at h
      cases h
    rw [if_neg hfile] at h
    obtain ⟨⟨start, stop⟩, hrange, h⟩ := Option.bind_eq_some_iff.mp h
    dsimp only at h
    by_cases hordered : stop < start
    · rw [if_pos hordered] at h
      cases h
    rw [if_neg hordered] at h
    cases h
    refine ⟨⟨String.ofList range, ?_, ?_, ?_⟩, ?_, Nat.not_lt.mp hordered⟩
    · rw [← String.toList_inj]
      simp [hs]
    · simpa using hcolon
    · simpa using range?_eq_some_iff.mp hrange
    · intro hempty
      exact hfile (by simpa using hempty)
  · rintro ⟨⟨range, rfl, hcolon, hrange⟩, hfile, hordered⟩
    have htext : (d.path.text ++ ":" ++ range).toList =
        d.path.text.toList ++ ':' :: range.toList := by simp
    rw [htext, Cut.cutLast?_eq_some_iff.mpr ⟨rfl, hcolon⟩]
    simp [hfile, range?_eq_some_iff.mpr hrange, Nat.not_lt.mpr hordered]

/-! ## printing -/

def renderBoth (d : Descriptor) : String :=
  d.path.text ++ ":#" ++ toString d.start ++ ",#" ++ toString d.stop

def render (d : Descriptor) : String :=
  if d.start = d.stop then d.path.text ++ ":#" ++ toString d.start else d.renderBoth

theorem spellsOffset_toDigits (h : n < UInt64.size) :
    SpellsOffset ('#' :: Nat.toDigits 10 n) n := by
  refine ⟨[], Nat.toDigits 10 n, [], by simp, nofun, ?_, nofun⟩
  exact ⟨[], Nat.toDigits 10 n, rfl, .inl rfl, Nat.toDigits_ne_nil,
    fun c hc => Nat.isDigit_of_mem_toDigits (by decide) (by decide) hc,
      Nat.ofDigitChars_ten_toDigits, h⟩

theorem SpellsRange.colon_not_mem (h : SpellsRange cs m n) : ':' ∉ cs := by
  cases h with
  | one h => exact h.colon_not_mem
  | two hm hn =>
    rw [List.mem_append, List.mem_cons]
    rintro (hc | hc)
    · exact hm.colon_not_mem hc
    · exact hc.elim (by decide) hn.colon_not_mem

theorem spells_renderBoth (hfile : d.path.text ≠ "") (hordered : d.start ≤ d.stop)
    (hlt : d.stop < UInt64.size) : Spells d.renderBoth d := by
  have hrange :
      SpellsRange ("#" ++ toString d.start ++ ",#" ++ toString d.stop).toList d.start d.stop := by
    have htext : ("#" ++ toString d.start ++ ",#" ++ toString d.stop).toList =
        ('#' :: Nat.toDigits 10 d.start) ++ ',' :: ('#' :: Nat.toDigits 10 d.stop) := by simp
    rw [htext]
    exact .two (spellsOffset_toDigits (Nat.lt_of_le_of_lt hordered hlt)) (spellsOffset_toDigits hlt)
  refine ⟨⟨_, ?_, hrange.colon_not_mem, hrange⟩, hfile, hordered⟩
  rw [← String.toList_inj]
  simp [renderBoth]

theorem spells_render (hfile : d.path.text ≠ "") (hordered : d.start ≤ d.stop)
    (hlt : d.stop < UInt64.size) : Spells d.render d := by
  unfold render
  split
  case isTrue heq =>
    have hrange : SpellsRange ("#" ++ toString d.start).toList d.start d.stop := by
      have htext : ("#" ++ toString d.start).toList = '#' :: Nat.toDigits 10 d.start := by simp
      rw [htext, ← heq]
      exact .one (spellsOffset_toDigits (Nat.lt_of_le_of_lt hordered hlt))
    refine ⟨⟨_, ?_, hrange.colon_not_mem, hrange⟩, hfile, hordered⟩
    rw [← String.toList_inj]
    simp
  case isFalse => exact spells_renderBoth hfile hordered hlt

theorem parse_eq_ok : parse s = .ok d ↔ Spells s d := by
  rw [← parse?_eq_some_iff, parse]
  cases parse? s <;> simp

/-- Positions are read from the texts of their form and from no others; printed ones are among them.
-/
theorem parse_exact :
    (∀ s d, parse s = .ok d ↔ Spells s d) ∧
    (∀ s, (¬ ∃ d, Spells s d) → parse s = .error (.invalidPosition s)) ∧
    ∀ d : Descriptor, d.path.text ≠ "" → d.start ≤ d.stop → d.stop < UInt64.size →
      parse d.render = .ok d ∧ parse d.renderBoth = .ok d := by
  refine ⟨fun s d => parse_eq_ok, fun s h => ?_, fun d hfile hordered hlt => ?_⟩
  · have hnone : parse? s = none := by
      rw [Option.eq_none_iff_forall_ne_some]
      exact fun d hd => h ⟨d, parse?_eq_some_iff.mp hd⟩
    rw [parse, hnone]
  · exact ⟨parse_eq_ok.mpr (spells_render hfile hordered hlt),
      parse_eq_ok.mpr (spells_renderBoth hfile hordered hlt)⟩

/-- Separators in the name of a file, and the greatest offset. -/
theorem parse_exact_separators :
    parse "a:b,#1:#7,#18446744073709551615" = .ok ⟨⟨"a:b,#1"⟩, 7, 18446744073709551615⟩ ∧
    parse "a:b,#1:#7,#18446744073709551616" =
      .error (.invalidPosition "a:b,#1:#7,#18446744073709551616") ∧
    parse "a,#1:#7,#6" = .error (.invalidPosition "a,#1:#7,#6") ∧
    parse (render ⟨⟨"a:#1"⟩, 7, 7⟩) = .ok ⟨⟨"a:#1"⟩, 7, 7⟩ := by
  have hprinted :=
    parse_exact.2.2 ⟨⟨"a:b,#1"⟩, 7, 18446744073709551615⟩ (by decide) (by decide) (by decide)
  have hsingle := parse_exact.2.2 ⟨⟨"a:#1"⟩, 7, 7⟩ (by decide) (by decide) (by decide)
  have hlarge : ¬ ∃ d, Spells "a:b,#1:#7,#18446744073709551616" d := by
    rintro ⟨d, hd⟩
    have hnone : parse? "a:b,#1:#7,#18446744073709551616" = none := by decide +kernel
    cases hnone.symm.trans (parse?_eq_some_iff.mpr hd)
  have hfalling : ¬ ∃ d, Spells "a,#1:#7,#6" d := by
    rintro ⟨d, hd⟩
    have hnone : parse? "a,#1:#7,#6" = none := by decide +kernel
    cases hnone.symm.trans (parse?_eq_some_iff.mpr hd)
  exact ⟨hprinted.2, parse_exact.2.1 _ hlarge, parse_exact.2.1 _ hfalling, hsingle.1⟩

end Descriptor

end ParamThreading
