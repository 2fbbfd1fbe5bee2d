import ParamThreading.Proofs.Lexemes

/-!
# The scanner as a machine

A state is what is left of the text, with its offset and the line break on the way to it; a step
skips a blank or a comment, or emits tokens.

* `Scan.Step`, `Scan.Steps`  one step and many, as long as no comment stays open;
* `Scan.run_shift`  a text further behind has the same tokens further behind;
* `Scan.Steps.exchange`  the steps up to a place do not depend on what stands there;
* `Scan.exists_steps`  the state in which a given punctuation mark is read;
* `Scan.Cut`  places at which the text may go on with another one.
-/

namespace ParamThreading

/-- A state of the scanner: what is left of the text, where it begins, and the first line break on
the way to it. -/
structure Scan where
  lineBreak : Option Nat
  pos : Nat
  chars : List Char

namespace Scan

open Token

def run (s : Scan) : List Token := scanFrom (s.chars.length + 1) s.lineBreak s.pos s.chars

def start (text : String) : Scan := ⟨none, 0, text.toList⟩

theorem run_start (text : String) : (start text).run = scan text := rfl

def shift (k : Nat) (s : Scan) : Scan := ⟨s.lineBreak.map (· + k), s.pos + k, s.chars⟩

def withChars (s : Scan) (cs : List Char) : Scan := ⟨s.lineBreak, s.pos, cs⟩

theorem run_shift (k : Nat) (s : Scan) : (s.shift k).run = s.run.map (Token.shift k) :=
  scanFrom_shift ..

/-- A step of the scanner: over a blank, over a comment, or over the characters of some tokens. -/
inductive Step (s : Scan) : List Token → Scan → Prop where
  | space {c : Char} {cs : List Char} : s.chars = c :: cs → isSpace c = true →
      Step s [] ⟨if c == '\n' then s.lineBreak.or (some s.pos) else s.lineBreak,
        s.pos + c.utf8Size, cs⟩
  | comment {skipped after : List Char} : s.chars = skipped ++ after →
      afterComment s.chars = some after → Step s [] ⟨s.lineBreak, s.pos + width skipped, after⟩
  | token {c : Char} {cs after : List Char} {ts : List Token} : s.chars = c :: cs →
      isSpace c = false → beginsComment s.chars = false →
      lexeme s.lineBreak s.pos s.chars = (ts, after) → Sound ts →
      Step s ts ⟨none, endOf s.pos ts, after⟩

inductive Steps : Scan → List Token → Scan → Prop where
  | refl (s : Scan) : Steps s [] s
  | head {s s' s'' : Scan} {ts us : List Token} : Step s ts s' → Steps s' us s'' →
      Steps s (ts ++ us) s''

section
variable {s s' s'' : Scan} {ts us : List Token}

theorem run_lexeme {c : Char} {cs : List Char} (hchars : s.chars = c :: cs)
    (hspace : isSpace c = false) (hnone : afterComment s.chars = none) :
    s.run = (lexeme s.lineBreak s.pos s.chars).1 ++
      run ⟨none, endOf s.pos (lexeme s.lineBreak s.pos s.chars).1,
        (lexeme s.lineBreak s.pos s.chars).2⟩ := by
  have hlen := length_lexeme s.lineBreak s.pos c cs
  rw [hchars] at hnone
  simp only [run, hchars]
  rw [scanFrom, if_neg (by simp [hspace])]
  simp only [hnone]
  exact congrArg (_ ++ ·) (scanFrom_fuel (Nat.lt_succ_of_le hlen) (Nat.lt_succ_self _))

theorem Step.run_eq (h : Step s ts s') : s.run = ts ++ s'.run := by
  cases h with
  | @space c cs hchars hspace =>
    simp only [run, hchars]
    rw [scanFrom, if_pos hspace]
    exact scanFrom_fuel (Nat.lt_succ_self _) (Nat.lt_succ_self _)
  | @comment skipped after hchars hafter =>
    obtain ⟨rest, hslash⟩ := exists_cons_of_afterComment hafter
    have hlen := congrArg List.length (hslash.symm.trans hchars)
    rw [List.length_append, List.length_cons] at hlen
    have hskipped : ('/' :: rest).take (rest.length + 1 - after.length) = skipped := by
      rw [← hslash, hchars, hlen, Nat.add_sub_cancel, List.take_left]
    rw [hslash] at hafter
    simp only [run, hslash]
    rw [scanFrom, if_neg (by decide)]
    simp only [hafter]
    rw [hskipped]
    have hafter' := length_afterComment hafter
    rw [List.length_cons] at hafter'
    exact scanFrom_fuel (by rw [List.length_cons]; omega) (Nat.lt_succ_self _)
  | @token c cs after ts hchars hspace hcomment hlexeme hsound =>
    have hrun := run_lexeme hchars hspace (afterComment_eq_none hcomment)
    rwa [hlexeme] at hrun

theorem Steps.run_eq (h : Steps s us s') : s.run = us ++ s'.run := by
  induction h with
  | refl => rfl
  | head hstep _ ih => rw [hstep.run_eq, ih, List.append_assoc]

theorem Steps.trans (h : Steps s ts s') (h' : Steps s' us s'') : Steps s (ts ++ us) s'' := by
  induction h with
  | refl => exact h'
  | head hstep _ ih =>
    rw [List.append_assoc]
    exact .head hstep (ih h')

theorem Step.steps (h : Step s ts s') : Steps s ts s' := by
  have h' := Steps.head h (.refl s')
  rwa [List.append_nil] at h'

theorem Step.unique {s₁ s₂ : Scan} {ts₁ ts₂ : List Token} (h₁ : Step s ts₁ s₁)
    (h₂ : Step s ts₂ s₂) : ts₁ = ts₂ ∧ s₁ = s₂ := by
  cases h₁ with
  | @space c cs hchars hspace =>
    cases h₂ with
    | space hchars' hspace' =>
      obtain ⟨rfl, rfl⟩ := List.cons.inj (hchars.symm.trans hchars')
      exact ⟨rfl, rfl⟩
    | comment hchars' hafter =>
      obtain ⟨rest, hslash⟩ := exists_cons_of_afterComment hafter
      rw [(List.cons.inj (hchars.symm.trans hslash)).1] at hspace
      exact absurd hspace (by decide)
    | token hchars' hspace' =>
      rw [(List.cons.inj (hchars.symm.trans hchars')).1, hspace'] at hspace
      cases hspace
  | @comment skipped after hchars hafter =>
    cases h₂ with
    | space hchars' hspace =>
      obtain ⟨rest, hslash⟩ := exists_cons_of_afterComment hafter
      rw [(List.cons.inj (hchars'.symm.trans hslash)).1] at hspace
      exact absurd hspace (by decide)
    | comment hchars' hafter' =>
      obtain rfl := Option.some.inj (hafter.symm.trans hafter')
      obtain rfl := List.append_cancel_right (hchars.symm.trans hchars')
      exact ⟨rfl, rfl⟩
    | token _ _ hcomment =>
      rw [afterComment_eq_none hcomment] at hafter
      cases hafter
  | @token c cs after ts hchars hspace hcomment hlexeme hsound =>
    cases h₂ with
    | space hchars' hspace' =>
      rw [(List.cons.inj (hchars'.symm.trans hchars)).1, hspace] at hspace'
      cases hspace'
    | comment _ hafter =>
      rw [afterComment_eq_none hcomment] at hafter
      cases hafter
    | token _ _ _ hlexeme' =>
      obtain ⟨rfl, rfl⟩ := Prod.mk.inj (hlexeme.symm.trans hlexeme')
      exact ⟨rfl, rfl⟩

/-- Two runs from one state go the same way as far as both go. -/
theorem Steps.linear {s₁ s₂ : Scan} {us₁ us₂ : List Token} (h₁ : Steps s us₁ s₁)
    (h₂ : Steps s us₂ s₂) :
    (∃ us, us₂ = us₁ ++ us ∧ Steps s₁ us s₂) ∨ (∃ us, us₁ = us₂ ++ us ∧ Steps s₂ us s₁) := by
  induction h₁ generalizing us₂ with
  | refl s => exact .inl ⟨us₂, rfl, h₂⟩
  | @head s m s₁ ts us hstep hsteps ih =>
    cases h₂ with
    | refl => exact .inr ⟨_, rfl, .head hstep hsteps⟩
    | head hstep' hsteps' =>
      obtain ⟨rfl, rfl⟩ := hstep.unique hstep'
      rcases ih hsteps' with ⟨vs, rfl, hvs⟩ | ⟨vs, rfl, hvs⟩
      · exact .inl ⟨vs, (List.append_assoc ..).symm, hvs⟩
      · exact .inr ⟨vs, (List.append_assoc ..).symm, hvs⟩

theorem Step.passes (h : Step s ts s') : ∃ taken, taken ≠ [] ∧ s.chars = taken ++ s'.chars ∧
    s'.pos = s.pos + width taken ∧ ∀ t ∈ ts, t.start < s'.pos := by
  cases h with
  | @space c cs hchars hspace => exact ⟨[c], nofun, hchars, rfl, nofun⟩
  | @comment skipped after hchars hafter =>
    refine ⟨skipped, ?_, hchars, rfl, nofun⟩
    rintro rfl
    have hlen := length_afterComment hafter
    rw [hchars, List.nil_append] at hlen
    omega
  | @token c cs after ts hchars hspace hcomment hlexeme hsound =>
    have htakes := lexeme_takes s.lineBreak s.pos (hchars ▸ List.cons_ne_nil c cs)
      (by rw [hlexeme]; exact hsound)
    rw [hlexeme] at htakes
    exact htakes

theorem Steps.passes (h : Steps s us s') : ∃ taken, s.chars = taken ++ s'.chars ∧
    s'.pos = s.pos + width taken ∧ ∀ t ∈ us, t.start < s'.pos := by
  induction h with
  | refl s => exact ⟨[], rfl, rfl, nofun⟩
  | @head s m s' ts us hstep _ ih =>
    obtain ⟨taken, -, hchars, hpos, hts⟩ := hstep.passes
    obtain ⟨taken', hchars', hpos', hus⟩ := ih
    refine ⟨taken ++ taken', ?_, ?_, fun t ht => ?_⟩
    · rw [hchars, hchars', List.append_assoc]
    · rw [hpos', hpos, width_append, Nat.add_assoc]
    · rcases List.mem_append.mp ht with ht | ht
      · exact Nat.lt_of_lt_of_le (hts t ht) (by omega)
      · exact hus t ht

theorem map_or_lineBreak (k : Nat) (c : Char) (lineBreak : Option Nat) (pos : Nat) :
    (if c == '\n' then lineBreak.or (some pos) else lineBreak).map (· + k) =
      if c == '\n' then (lineBreak.map (· + k)).or (some (pos + k)) else lineBreak.map (· + k) := by
  split
  · cases lineBreak <;> rfl
  · rfl

theorem Step.shift (k : Nat) (h : Step s ts s') :
    Step (s.shift k) (ts.map (Token.shift k)) (s'.shift k) := by
  cases h with
  | @space c cs hchars hspace =>
    have h : Step (s.shift k) [] _ := .space hchars hspace
    rw [show s.shift k = ⟨s.lineBreak.map (· + k), s.pos + k, s.chars⟩ from rfl] at h ⊢
    rw [Nat.add_right_comm s.pos k, ← map_or_lineBreak] at h
    exact h
  | @comment skipped after hchars hafter =>
    have h : Step (s.shift k) [] _ := .comment hchars hafter
    rw [show s.shift k = ⟨s.lineBreak.map (· + k), s.pos + k, s.chars⟩ from rfl] at h ⊢
    rw [Nat.add_right_comm s.pos k] at h
    exact h
  | @token c cs after ts hchars hspace hcomment hlexeme hsound =>
    have hlexeme' := lexeme_shift k s.lineBreak s.pos s.chars
    rw [hlexeme] at hlexeme'
    have hsound' : Sound (ts.map (Token.shift k)) := by
      intro t ht
      obtain ⟨u, hu, rfl⟩ := List.mem_map.mp ht
      exact hsound u hu
    have h : Step (s.shift k) (ts.map (Token.shift k)) _ :=
      .token hchars hspace hcomment hlexeme' hsound'
    rw [show endOf (s.shift k).pos (ts.map (Token.shift k)) = endOf s.pos ts + k from
      endOf_shift ..] at h
    exact h

theorem Steps.shift (k : Nat) (h : Steps s us s') :
    Steps (s.shift k) (us.map (Token.shift k)) (s'.shift k) := by
  induction h with
  | refl s => exact .refl _
  | head hstep _ ih =>
    rw [List.map_append]
    exact .head (hstep.shift k) ih

end

/-! ## another text behind a place -/

/-- What stands behind the text `cs` may be exchanged: no token goes on there, and either the first
character stays, or the text before it is not empty and opens no comment together with what comes.
-/
structure Exchangeable (cs rest rest' : List Char) : Prop where
  old : Stopped rest
  new : Stopped rest'
  joint : (∃ d r r', rest = d :: r ∧ rest' = d :: r') ∨
    (cs ≠ [] ∧ (cs.getLast? = some '/' → rest'.head? ≠ some '/'))

section
variable {s s' : Scan} {ts us : List Token} {cs cs' rest rest' : List Char}

theorem Exchangeable.append (h : Exchangeable cs rest rest') (taken : List Char) :
    Exchangeable (taken ++ cs) rest rest' := by
  refine ⟨h.old, h.new, ?_⟩
  rcases h.joint with hsame | ⟨hne, hslash⟩
  · exact .inl hsame
  · refine .inr ⟨List.append_ne_nil_of_right_ne_nil _ hne, ?_⟩
    rwa [List.getLast?_append_of_ne_nil _ hne]

theorem Exchangeable.afterComment_eq (h : Exchangeable cs' rest rest')
    (hafter : afterComment (cs ++ rest) = some (cs' ++ rest)) :
    afterComment (cs ++ rest') = some (cs' ++ rest') := by
  rcases h.joint with ⟨d, r, r', rfl, rfl⟩ | ⟨hne, -⟩
  · -- the comment ends before the character that stays
    rw [List.append_cons cs, List.append_cons cs'] at hafter ⊢
    exact afterComment_exchange r' hafter (by simp)
  · exact afterComment_exchange rest' hafter hne

theorem Exchangeable.beginsComment_eq {c : Char} (h : Exchangeable (c :: cs) rest rest')
    (hcomment : beginsComment (c :: cs ++ rest) = false) :
    beginsComment (c :: cs ++ rest') = false := by
  rcases h.joint with ⟨d, r, r', rfl, rfl⟩ | ⟨-, hslash⟩
  · cases cs with
    | nil => rwa [List.singleton_append, beginsComment_cons_cons c d r' r]
    | cons e cs =>
      rwa [List.cons_append, List.cons_append, beginsComment_cons_cons c e _ (cs ++ d :: r)]
  · exact beginsComment_exchange hcomment h.new hslash

theorem Step.exchange (h : Step s ts s') (hchars : s.chars = cs ++ rest)
    (hchars' : s'.chars = cs' ++ rest) (hx : Exchangeable cs rest rest')
    (hlast : ts ≠ [] ∨ Exchangeable cs' rest rest') :
    Step (s.withChars (cs ++ rest')) ts (s'.withChars (cs' ++ rest')) := by
  obtain ⟨taken, hne, htaken, -⟩ := h.passes
  obtain rfl : cs = taken ++ cs' := by
    rw [hchars, hchars', ← List.append_assoc] at htaken
    exact List.append_cancel_right htaken
  cases h with
  | @space c tail hcons hspace =>
    obtain rfl : tail = cs' ++ rest := hchars'
    have htaken' : taken ++ (cs' ++ rest) = [c] ++ (cs' ++ rest) := by
      rw [← List.append_assoc, ← hchars, hcons]
      rfl
    rw [List.append_cancel_right htaken']
    exact .space rfl hspace
  | @comment skipped after hskipped hafter =>
    obtain rfl : after = cs' ++ rest := hchars'
    rw [hchars, List.append_assoc] at hskipped
    obtain rfl := List.append_cancel_right hskipped
    rw [hchars] at hafter
    have hx' : Exchangeable cs' rest rest' := hlast.resolve_left (fun h => h rfl)
    exact .comment (List.append_assoc ..) (hx'.afterComment_eq hafter)
  | @token c tail after ts hcons hspace hcomment hlexeme hsound =>
    obtain rfl : after = cs' ++ rest := hchars'
    obtain ⟨d, tail', rfl⟩ := List.exists_cons_of_ne_nil hne
    obtain rfl : d = c := (List.cons.inj (hchars.symm.trans hcons)).1
    rw [hchars] at hcomment hlexeme
    exact .token rfl hspace (hx.beginsComment_eq hcomment)
      (lexeme_exchange hlexeme hsound nofun hx.old hx.new) hsound

/-- The steps up to a place do not depend on what stands there. -/
theorem Steps.exchange (h : Steps s us s') (hchars : s'.chars = cs ++ rest)
    (hx : Exchangeable cs rest rest') : ∃ taken, s.chars = taken ++ s'.chars ∧
      Steps (s.withChars (taken ++ (cs ++ rest'))) us (s'.withChars (cs ++ rest')) := by
  induction h with
  | refl s => exact ⟨[], rfl, .refl _⟩
  | @head s m s' ts us hstep _ ih =>
    obtain ⟨taken, htaken, hsteps⟩ := ih hchars
    obtain ⟨first, -, hfirst, -⟩ := hstep.passes
    refine ⟨first ++ taken, by rw [hfirst, htaken, List.append_assoc], ?_⟩
    have hm : m.chars = taken ++ cs ++ rest := by rw [htaken, hchars, List.append_assoc]
    have hs : s.chars = first ++ (taken ++ cs) ++ rest := by
      rw [hfirst, hm, ← List.append_assoc first]
    have hstep' := hstep.exchange hs hm ((hx.append taken).append first) (.inr (hx.append taken))
    rw [List.append_assoc first, List.append_assoc taken] at hstep'
    rw [List.append_assoc]
    exact .head hstep' hsteps

end

/-! ## where a mark is read -/

end Scan

namespace Token

def opens (t u : Token) : Bool :=
  t.cls == .mark && t.text == "/" && u.text == "*" && t.stop == u.start

def closed : List Token → Bool
  | t :: u :: ts => !opens t u && closed (u :: ts)
  | _ => true

theorem closed_of_append {ts us : List Token} (h : closed (ts ++ us) = true) :
    closed us = true := by
  induction ts with
  | nil => exact h
  | cons t ts ih =>
    refine ih ?_
    cases hrest : ts ++ us with
    | nil => rfl
    | cons u vs =>
      rw [List.cons_append, hrest, closed, Bool.and_eq_true] at h
      exact h.2

end Token

namespace Scan

open Token

section
variable {s : Scan}

theorem run_nil {s : Scan} (h : s.chars = []) : s.run = [make .finish s.lineBreak s.pos []] := by
  unfold run
  rw [h]
  rfl

theorem run_open {rest : List Char} (hchars : s.chars = '/' :: '*' :: rest)
    (hnone : afterComment s.chars = none) :
    s.run = make .mark s.lineBreak s.pos ['/'] :: make .mark none (s.pos + 1) ['*'] ::
      run ⟨none, s.pos + 2, rest⟩ := by
  rw [run_lexeme hchars (by decide) hnone, hchars, lexeme_punctuation (by decide)]
  refine congrArg (_ :: ·) ?_
  show run ⟨none, s.pos + 1, '*' :: rest⟩ = _
  rw [run_lexeme (s := ⟨none, s.pos + 1, '*' :: rest⟩) rfl (by decide) rfl]
  rw [lexeme_punctuation (by decide)]
  rfl

/-- What can happen in a state: a step, an open comment, or the end. -/
theorem exists_step (hne : s.chars ≠ []) :
    (∃ ts s', Step s ts s') ∨ (∃ rest, s.chars = '/' :: '*' :: rest ∧ afterComment s.chars = none) ∨
      ∃ ts lineBreak pos, s.run = ts ++ [make .finish lineBreak pos []] ∧
        (∀ t ∈ ts, t.cls ≠ .mark) ∧ ¬Sound ts := by
  obtain ⟨c, cs, hchars⟩ := List.exists_cons_of_ne_nil hne
  cases hspace : isSpace c with
  | true => exact .inl ⟨_, _, .space hchars hspace⟩
  | false =>
    cases hafter : afterComment s.chars with
    | some after =>
      obtain ⟨skipped, hskipped⟩ := afterComment_suffix hafter
      exact .inl ⟨_, _, .comment hskipped.symm hafter⟩
    | none =>
      cases hcomment : beginsComment s.chars with
      | true =>
        obtain ⟨rest, hrest⟩ := opens_of_beginsComment hcomment hafter
        exact .inr (.inl ⟨rest, hrest, rfl⟩)
      | false =>
        by_cases hsound : Sound (lexeme s.lineBreak s.pos s.chars).1
        · exact .inl ⟨_, _, .token hchars hspace hcomment rfl hsound⟩
        · have hrun := run_lexeme hchars hspace hafter
          have hnil := lexeme_eq_nil s.lineBreak s.pos s.chars hsound
          refine .inr (.inr ⟨_, _, _, hrun.trans (congrArg (_ ++ ·) (run_nil hnil)), ?_, hsound⟩)
          intro t ht hmark
          rw [hchars] at ht hsound
          rw [lexeme_mark_alone _ _ ht hmark] at hsound
          exact hsound (List.forall_mem_singleton.mpr nofun)

theorem exists_step_of_mark {t : Token} (ht : t ∈ s.run) (hmark : t.cls = .mark) :
    (∃ ts s', Step s ts s') ∨ ∃ rest, s.chars = '/' :: '*' :: rest ∧
      afterComment s.chars = none := by
  by_cases hne : s.chars = []
  · rw [run_nil hne, List.mem_singleton] at ht
    rw [ht] at hmark
    cases hmark
  · rcases exists_step hne with hstep | hopen | ⟨ts, lineBreak, pos, hts, hcls, -⟩
    · exact .inl hstep
    · exact .inr hopen
    · rw [hts] at ht
      rcases List.mem_append.mp ht with ht | ht
      · exact absurd hmark (hcls t ht)
      · rw [List.mem_singleton.mp ht] at hmark
        cases hmark

theorem opens_run_open (lineBreak : Option Nat) (pos : Nat) :
    opens (make .mark lineBreak pos ['/']) (make .mark none (pos + 1) ['*']) = true := by
  have hstop : (make .mark lineBreak pos ['/']).stop = pos + 1 := rfl
  have hstart : (make .mark none (pos + 1) ['*']).start = pos + 1 := rfl
  rw [opens, hstop, hstart, beq_self_eq_true]
  rfl

theorem Step.mark {s' : Scan} {ts : List Token} {t : Token} (h : Step s ts s') (ht : t ∈ ts)
    (hmark : t.cls = .mark) : ∃ c rest, s.chars = c :: rest ∧ ts = [t] ∧
      t = make .mark s.lineBreak s.pos [c] ∧ s' = ⟨none, t.stop, rest⟩ := by
  cases h with
  | space => cases ht
  | comment => cases ht
  | @token c cs after ts hchars hspace hcomment hlexeme hsound =>
    rw [hchars] at hlexeme
    have hsingle := lexeme_mark_alone s.lineBreak s.pos (by rw [hlexeme]; exact ht) hmark
    obtain ⟨rfl, rfl⟩ := Prod.mk.inj (hlexeme.symm.trans hsingle)
    obtain rfl := List.mem_singleton.mp ht
    exact ⟨c, after, hchars, rfl, rfl, rfl⟩

/-- In a text without open comments, the state in which a given mark is read. -/
theorem exists_steps {pre post : List Token} {t : Token} (hrun : s.run = pre ++ t :: post)
    (hmark : t.cls = .mark) (hclosed : closed s.run = true) :
    ∃ m c rest, Steps s pre m ∧ m.chars = c :: rest ∧ t = make .mark m.lineBreak m.pos [c] ∧
      Step m [t] ⟨none, t.stop, rest⟩ := by
  have hmem : t ∈ s.run := by rw [hrun]; simp
  induction hlen : s.chars.length using Nat.strong_induction_on generalizing s pre with
  | _ n ih =>
    rcases exists_step_of_mark hmem hmark with ⟨ts, s', hstep⟩ | ⟨rest, hchars, hnone⟩
    · have hrun' := hstep.run_eq
      obtain ⟨taken, htaken, hchars, -⟩ := hstep.passes
      have hlt : s'.chars.length < n := by
        have hpos := List.length_pos_of_ne_nil htaken
        rw [← hlen, hchars, List.length_append]
        omega
      have hclosed' : closed s'.run = true := by
        rw [hrun'] at hclosed
        exact closed_of_append hclosed
      have hlater : ∀ pre' : List Token, s'.run = pre' ++ t :: post → pre = ts ++ pre' →
          ∃ m c rest, Steps s pre m ∧ m.chars = c :: rest ∧
            t = make .mark m.lineBreak m.pos [c] ∧ Step m [t] ⟨none, t.stop, rest⟩ := by
        rintro pre' hpre' rfl
        obtain ⟨m, c, rest, hsteps, hread⟩ :=
          ih _ hlt hpre' hclosed' (by rw [hpre']; simp) rfl
        exact ⟨m, c, rest, .head hstep hsteps, hread⟩
      rcases List.append_eq_append_iff.mp (hrun.symm.trans hrun')
        with ⟨as, rfl, has⟩ | ⟨bs, hpre, hbs⟩
      · cases as with
        | nil => exact hlater [] has.symm (by simp)
        | cons u as =>
          obtain ⟨rfl, -⟩ := List.cons.inj has
          obtain ⟨c, rest, hc, hsingle, hread, rfl⟩ := hstep.mark (by simp) hmark
          obtain rfl : pre = [] := by
            have hone := congrArg List.length hsingle
            rw [List.length_append, List.length_cons, List.length_singleton] at hone
            exact List.eq_nil_of_length_eq_zero (by omega)
          rw [hsingle] at hstep
          exact ⟨s, c, rest, .refl s, hc, hread, hstep⟩
      · exact hlater bs hbs hpre
    · rw [run_open hchars hnone, closed, opens_run_open] at hclosed
      cases hclosed

theorem exists_steps_end (hclosed : closed s.run = true) (hsound : Sound s.run) :
    ∃ us e, Steps s us e ∧ e.chars = [] := by
  induction hlen : s.chars.length using Nat.strong_induction_on generalizing s with
  | _ n ih =>
    by_cases hne : s.chars = []
    · exact ⟨[], s, .refl s, hne⟩
    · rcases exists_step hne with
        ⟨ts, s', hstep⟩ | ⟨rest, hchars, hnone⟩ | ⟨ts, _, _, hts, -, hstray⟩
      · obtain ⟨taken, htaken, hchars, -⟩ := hstep.passes
        have hpos := List.length_pos_of_ne_nil htaken
        rw [hchars, List.length_append] at hlen
        rw [hstep.run_eq] at hclosed hsound
        obtain ⟨us, e, hsteps, he⟩ := ih _ (by omega) (closed_of_append hclosed)
          (fun t ht => hsound t (List.mem_append_right _ ht)) rfl
        exact ⟨ts ++ us, e, .head hstep hsteps, he⟩
      · rw [run_open hchars hnone, closed, opens_run_open] at hclosed
        cases hclosed
      · rw [hts] at hsound
        exact absurd (fun t ht => hsound t (List.mem_append_left _ ht)) hstray

/-! ## places for other texts -/

theorem Steps.exists_last {c : Scan} {us : List Token} (h : Steps s us c) (hus : us ≠ []) :
    ∃ vs m ts c₀, us = vs ++ ts ∧ Steps s vs m ∧ Step m ts c₀ ∧ ts ≠ [] ∧ Steps c₀ [] c := by
  induction h with
  | refl s => exact absurd rfl hus
  | @head s s' c ts us hstep hsteps ih =>
    by_cases hlater : us = []
    · subst hlater
      rw [List.append_nil] at hus ⊢
      exact ⟨[], s, ts, s', rfl, .refl s, hstep, hus, hsteps⟩
    · obtain ⟨vs, m, ts', c₀, rfl, hvs, hrest⟩ := ih hlater
      exact ⟨ts ++ vs, m, ts', c₀, (List.append_assoc ..).symm, .head hstep hvs, hrest⟩

theorem Steps.before {r m c : Scan} {us vs ts : List Token} (hr : Steps s us r) (hm : Steps s vs m)
    (hstep : Step m ts c) (hlt : r.pos < c.pos) : ∃ ws, vs = us ++ ws ∧ Steps r ws m := by
  rcases hr.linear hm with h | ⟨ws, rfl, hws⟩
  · exact h
  · cases hws with
    | refl => exact ⟨[], by simp, .refl _⟩
    | head hstep' hsteps' =>
      -- the run has gone on behind the step
      obtain ⟨-, rfl⟩ := hstep.unique hstep'
      obtain ⟨taken, -, hpos, -⟩ := hsteps'.passes
      omega

/-- A place behind a token at which the text may go on with any text that fits: whatever has been
read before it is read again. -/
structure Cut (s : Scan) (us : List Token) (c : Scan) (fits : List Char → Prop) : Prop where
  steps : Steps s us c
  fresh : c.lineBreak = none
  exchange : ∀ r vs, Steps s vs r → r.pos < c.pos → ∃ ws taken, us = vs ++ ws ∧
    r.chars = taken ++ c.chars ∧
    ∀ rest, fits rest → Steps (r.withChars (taken ++ rest)) ws (c.withChars rest)

theorem cut_parenthesis {m : Scan} {us : List Token} {t : Token} {rest : List Char}
    (hsteps : Steps s us m) (hchars : m.chars = '(' :: rest)
    (ht : t = make .mark m.lineBreak m.pos ['(']) (hstep : Step m [t] ⟨none, t.stop, rest⟩) :
    Cut s (us ++ [t]) ⟨none, t.stop, rest⟩ fun _ => True := by
  refine ⟨hsteps.trans hstep.steps, rfl, fun r vs hr hlt => ?_⟩
  obtain ⟨ws, rfl, hws⟩ := hr.before hsteps hstep hlt
  have hx : ∀ rest', Exchangeable [] ('(' :: rest) ('(' :: rest') := fun rest' =>
    ⟨.cons (by decide) _, .cons (by decide) _, .inl ⟨'(', rest, rest', rfl, rfl⟩⟩
  obtain ⟨taken, htaken, -⟩ := hws.passes
  refine ⟨ws ++ [t], taken ++ ['('], List.append_assoc .., ?_, fun rest' _ => ?_⟩
  · rw [htaken, hchars, List.append_assoc]
    rfl
  · obtain ⟨taken', htaken', hsteps'⟩ := hws.exchange hchars (hx rest')
    obtain rfl := List.append_cancel_right (htaken.symm.trans htaken')
    have hread : Step (m.withChars ('(' :: rest')) [t] ⟨none, t.stop, rest'⟩ := by
      rw [ht]
      exact .token rfl (by decide) (beginsComment_of_ne (by decide) _)
        (lexeme_punctuation (by decide) ..) (List.forall_mem_singleton.mpr nofun)
    rw [List.append_assoc]
    exact hsteps'.trans hread.steps

theorem Step.reads {c : Scan} {ts : List Token} (h : Step s ts c) (hts : ts ≠ []) :
    c.lineBreak = none ∧ c.pos = endOf s.pos ts := by
  cases h with
  | space => exact absurd rfl hts
  | comment => exact absurd rfl hts
  | token => exact ⟨rfl, rfl⟩

theorem Steps.exchange_behind {m c : Scan} {us ts : List Token} (hsteps : Steps s us m)
    (hstep : Step m ts c) (hts : ts ≠ []) (hstopped : Stopped c.chars) :
    ∃ taken last, s.chars = taken ++ last ++ c.chars ∧ last ≠ [] ∧ ∀ rest, Stopped rest →
      (last.getLast? = some '/' → rest.head? ≠ some '/') →
      Steps (s.withChars (taken ++ last ++ rest)) (us ++ ts) (c.withChars rest) := by
  obtain ⟨last, hlast, hchars, -⟩ := hstep.passes
  obtain ⟨taken, htaken, -⟩ := hsteps.passes
  refine ⟨taken, last, by rw [htaken, hchars, List.append_assoc], hlast,
    fun rest hrest hslash => ?_⟩
  have hx : Exchangeable last c.chars rest := ⟨hstopped, hrest, .inr ⟨hlast, hslash⟩⟩
  obtain ⟨taken', htaken', hsteps'⟩ := hsteps.exchange hchars hx
  obtain rfl := List.append_cancel_right (htaken.symm.trans htaken')
  have hread := hstep.exchange hchars (List.nil_append c.chars).symm hx (.inl hts)
  rw [List.append_assoc]
  exact hsteps'.trans hread.steps

/-- Behind a token that is followed by a stop, texts fit that begin with a stop and open no comment.
-/
theorem cut_behind {m c : Scan} {us ts : List Token} (hsteps : Steps s us m) (hstep : Step m ts c)
    (hts : ts ≠ []) (hstopped : Stopped c.chars) :
    Cut s (us ++ ts) c fun rest => Stopped rest ∧ rest.head? ≠ some '/' := by
  refine ⟨hsteps.trans hstep.steps, (hstep.reads hts).1, fun r vs hr hlt => ?_⟩
  obtain ⟨ws, rfl, hws⟩ := hr.before hsteps hstep hlt
  obtain ⟨taken, last, hchars, -, hexchange⟩ := hws.exchange_behind hstep hts hstopped
  exact ⟨ws ++ ts, taken ++ last, List.append_assoc .., hchars,
    fun rest hrest => hexchange rest hrest.1 fun _ => hrest.2⟩

end

end Scan

end ParamThreading
