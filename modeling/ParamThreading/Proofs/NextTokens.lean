import ParamThreading.Proofs.Drafts

/-!
# How a text goes on

A text with insertions goes on behind a place just as the source does, as far as the next token, if
that token is a comma or a closing parenthesis and the insertions stand behind it.

* `closesOnLine`  a text that goes on with such a token before the line ends;
* `Scan.exists_behind`, `Scan.exists_readable`  what is read behind a token;
* `Spliced.around`  the text around an insertion;
* `closesOnLine_spliced`  how a text with insertions goes on.
-/

namespace ParamThreading

open Token

/-! ## the next token -/

def Token.closes (t : Token) : Bool :=
  t.cls == .mark && (t.text == "," || t.text == ")")

/-- The next token of a text closes what stands before it, and no line break comes first. -/
def closesOnLine (text : String) : Bool :=
  (scan text).head?.any fun t => t.closes && t.lineBreak.isNone

theorem Token.closes_iff {t : Token} :
    t.closes = true ↔ t.cls = .mark ∧ (t.text = "," ∨ t.text = ")") := by
  simp [closes]

namespace Scan

variable {s : Scan} {u t : Token} {pre post : List Token}

/-- The state behind a token, if a mark comes next. A slash and a star are no exception unless the
star is that mark. -/
theorem exists_behind (hrun : s.run = pre ++ u :: t :: post) (hmark : t.cls = .mark)
    (hstar : t.text ≠ "*") : ∃ taken rest, s.chars = taken ++ rest ∧ u.stop = s.pos + width taken ∧
      run ⟨none, u.stop, rest⟩ = t :: post := by
  induction hlen : s.chars.length using Nat.strong_induction_on generalizing s pre with
  | _ n ih =>
    -- what holds in a later state holds in this one
    have hlater : ∀ (s' : Scan) (pre' : List Token) {first : List Char}, first ≠ [] →
        s.chars = first ++ s'.chars → s'.pos = s.pos + width first →
        s'.run = pre' ++ u :: t :: post → ∃ taken rest, s.chars = taken ++ rest ∧
          u.stop = s.pos + width taken ∧ run ⟨none, u.stop, rest⟩ = t :: post := by
      intro s' pre' first hne hchars hpos hrun'
      have hlt : s'.chars.length < n := by
        have hpos := List.length_pos_of_ne_nil hne
        rw [← hlen, hchars, List.length_append]
        omega
      obtain ⟨taken, rest, hrest, hstop, hnext⟩ := ih _ hlt hrun' rfl
      refine ⟨first ++ taken, rest, by rw [hchars, hrest, List.append_assoc], ?_, hnext⟩
      rw [hstop, hpos, width_append, Nat.add_assoc]
    have hmem : t ∈ s.run := by rw [hrun]; simp
    rcases exists_step_of_mark hmem hmark with ⟨ts, s', hstep⟩ | ⟨rest, hchars, hnone⟩
    · obtain ⟨first, hfirst, hchars, hpos, -⟩ := hstep.passes
      rcases List.append_eq_append_iff.mp (hrun.symm.trans hstep.run_eq) with
        ⟨as, rfl, has⟩ | ⟨bs, -, hbs⟩
      · cases as with
        | nil => exact hlater s' [] hfirst hchars hpos has.symm
        | cons v as =>
          obtain ⟨rfl, hnext⟩ := List.cons.inj has
          cases as with
          | nil =>
            obtain ⟨lineBreak', pos', rest⟩ := s'
            obtain ⟨rfl, rfl⟩ := hstep.reads (by simp)
            rw [endOf_append] at hpos hnext
            exact ⟨first, rest, hchars, hpos, hnext.symm⟩
          | cons w as =>
            -- a mark is read alone
            obtain ⟨rfl, -⟩ := List.cons.inj hnext
            obtain ⟨c, rest, -, hsingle, -⟩ := hstep.mark (t := t) (by simp) hmark
            have hone := congrArg List.length hsingle
            simp at hone
            omega
      · exact hlater s' bs hfirst hchars hpos hbs
    · rw [run_open hchars hnone] at hrun
      have hboth : s.chars = ['/', '*'] ++ rest := hchars
      cases pre with
      | nil =>
        obtain ⟨-, hsecond⟩ := List.cons.inj hrun
        obtain ⟨rfl, -⟩ := List.cons.inj hsecond
        exact absurd rfl hstar
      | cons v pre =>
        obtain ⟨-, hsecond⟩ := List.cons.inj hrun
        cases pre with
        | nil =>
          obtain ⟨rfl, hnext⟩ := List.cons.inj hsecond
          exact ⟨['/', '*'], rest, hboth, rfl, hnext⟩
        | cons w pre =>
          obtain ⟨-, hnext⟩ := List.cons.inj hsecond
          exact hlater ⟨none, s.pos + 2, rest⟩ pre (List.cons_ne_nil _ _) hboth rfl hnext

theorem exists_steps_first (hrun : s.run = t :: post) (ht : t.closes = true) :
    ∃ m c rest, Steps s [] m ∧ m.chars = c :: rest ∧ (c = ',' ∨ c = ')') ∧
      t = make .mark m.lineBreak m.pos [c] := by
  obtain ⟨hmark, htext⟩ := closes_iff.mp ht
  induction hlen : s.chars.length using Nat.strong_induction_on generalizing s with
  | _ n ih =>
    have hmem : t ∈ s.run := by rw [hrun]; exact List.mem_cons_self
    rcases exists_step_of_mark hmem hmark with ⟨ts, s', hstep⟩ | ⟨rest, hchars, hnone⟩
    · have hrun' := hrun.symm.trans hstep.run_eq
      cases ts with
      | nil =>
        obtain ⟨first, hfirst, hchars, -⟩ := hstep.passes
        have hpos := List.length_pos_of_ne_nil hfirst
        rw [hchars, List.length_append] at hlen
        obtain ⟨m, c, rest, hsteps, hread⟩ := ih _ (by omega) hrun'.symm rfl
        exact ⟨m, c, rest, .head hstep hsteps, hread⟩
      | cons v ts =>
        obtain ⟨rfl, -⟩ := List.cons.inj hrun'
        obtain ⟨c, rest, hchars, -, hread, -⟩ := hstep.mark List.mem_cons_self hmark
        refine ⟨s, c, rest, .refl s, hchars, ?_, hread⟩
        rw [hread] at htext
        simpa [make, String.ext_iff] using htext
    · rw [run_open hchars hnone] at hrun
      rw [← (List.cons.inj hrun).1] at htext
      simp [make, String.ext_iff] at htext

theorem exists_readable (hrun : s.run = t :: post) (ht : t.closes = true) :
    ∃ taken rest, s.chars = taken ++ rest ∧ t.stop = s.pos + width taken ∧
      Readable s.lineBreak s.pos taken (fun _ => True) [t] none := by
  obtain ⟨m, c, rest, hsteps, hchars, hc, rfl⟩ := exists_steps_first hrun ht
  have hstops : c ∈ stops := by rcases hc with rfl | rfl <;> decide
  have hpunctuation : c ∈ punctuation := by rcases hc with rfl | rfl <;> decide
  have hslash : c ≠ '/' := by rcases hc with rfl | rfl <;> decide
  obtain ⟨taken, htaken, hpos, -⟩ := hsteps.passes
  have hstop : m.pos + width [c] = s.pos + width (taken ++ [c]) := by
    rw [hpos, width_append, Nat.add_assoc]
  refine ⟨taken ++ [c], rest, by rw [htaken, hchars, List.append_assoc]; rfl, hstop,
    fun rest' _ => ?_⟩
  have hx : Exchangeable [] (c :: rest) (c :: rest') :=
    ⟨.cons hstops _, .cons hstops _, .inl ⟨c, rest, rest', rfl, rfl⟩⟩
  obtain ⟨taken', htaken', hsteps'⟩ := hsteps.exchange hchars hx
  obtain rfl := List.append_cancel_right (htaken.symm.trans htaken')
  have hread :
      Readable m.lineBreak m.pos [c] (fun _ => True) [make .mark m.lineBreak m.pos [c]] none :=
    readable_mark hpunctuation hslash
  rw [← hstop, List.append_assoc]
  exact hsteps'.trans (hread rest' trivial)

end Scan

theorem closesOnLine_eq (pos : Nat) (cs : List Char) : closesOnLine (.ofList cs) =
    (Scan.run ⟨none, pos, cs⟩).head?.any fun t => t.closes && t.lineBreak.isNone := by
  have hshift := Scan.run_shift pos ⟨none, 0, cs⟩
  rw [show Scan.shift pos ⟨none, 0, cs⟩ = ⟨none, pos, cs⟩ by simp [Scan.shift]] at hshift
  have hscan : scan (.ofList cs) = Scan.run ⟨none, 0, cs⟩ := by
    rw [← Scan.run_start, Scan.start, String.toList_ofList]
  rw [closesOnLine, hscan, hshift, List.head?_map, Option.any_map]
  refine congrArg (Option.any · _) (funext fun t => ?_)
  simp [closes, Token.shift]

theorem closesOnLine_comma (text : String) : closesOnLine ("," ++ text) = true := by
  have hcs : "," ++ text = .ofList (',' :: text.toList) := by simp
  have hread : Scan.Readable none 0 [','] (fun _ => True) [make .mark none 0 [',']] none :=
    Scan.readable_mark (by decide) (by decide)
  have hrun : Scan.run ⟨none, 0, ',' :: text.toList⟩ = _ := (hread text.toList trivial).run_eq
  rw [hcs, closesOnLine_eq 0, hrun]
  rfl

theorem closesOnLine_tail {tail : String} (h : tail ∈ [",", ", "]) (text : String) :
    closesOnLine (tail ++ text) = true := by
  rcases List.mem_cons.mp h with rfl | h
  · exact closesOnLine_comma text
  · rw [List.mem_singleton.mp h, show ", " = "," ++ " " from rfl, String.append_assoc]
    exact closesOnLine_comma _

/-! ## texts with insertions -/

theorem Token.Chained.le_stop {hi lo : Nat} {ts : List Token} (h : Chained hi lo ts) {t : Token}
    (ht : t ∈ ts) : lo ≤ t.stop := by
  induction ts generalizing lo with
  | nil => cases ht
  | cons u ts ih =>
    obtain ⟨-, hstart, hstop, -, hrest⟩ := h
    rcases List.mem_cons.mp ht with rfl | ht
    · exact hstart.trans hstop
    · exact (hstart.trans hstop).trans (ih hrest ht)

theorem Token.Chained.stop_le_or {hi lo : Nat} {pre post : List Token} {u t v : Token}
    (h : Chained hi lo (pre ++ u :: t :: post)) (hv : v ∈ pre ++ u :: t :: post) :
    v.stop ≤ u.stop ∨ t.stop ≤ v.stop := by
  induction pre generalizing lo with
  | nil =>
    obtain ⟨-, -, -, -, -, -, -, -, hpost⟩ := h
    rcases List.mem_cons.mp hv with rfl | hv
    · exact .inl (Nat.le_refl _)
    rcases List.mem_cons.mp hv with rfl | hv
    · exact .inr (Nat.le_refl _)
    · exact .inr (hpost.le_stop hv)
  | cons w pre ih =>
    obtain ⟨-, -, -, -, hrest⟩ := h
    rcases List.mem_cons.mp hv with rfl | hv
    · exact .inl (hrest.le_stop (by simp))
    · exact ih hrest hv

namespace Spliced

variable {pos : Nat} {cs out out' : List Char} {before behind is : List Insertion} {i : Insertion}

theorem unique {text : String} (h : Spliced 0 text.toList is out)
    (h' : Spliced 0 text.toList is out') : out = out' := by
  have hboth := (h.splice?_eq (List.nil_append _).symm rfl).symm.trans
    (h'.splice?_eq (List.nil_append _).symm rfl)
  exact String.ofList_injective (Option.some.inj hboth)

theorem prepend {taken : List Char} (h : Spliced (pos + width taken) cs is out) :
    Spliced pos (taken ++ cs) is (taken ++ out) := by
  generalize hfrom : pos + width taken = start at h
  cases h with
  | rest => exact .rest
  | @insertion _ more cs out i is hoffset hrest =>
    rw [← List.append_assoc, ← List.append_assoc]
    exact .insertion (by rw [width_append]; omega) hrest

theorem around (h : Spliced pos cs (before ++ i :: behind) out) :
    ∃ taken rest xs ys, cs = taken ++ rest ∧
    i.offset = pos + width taken ∧ out = xs ++ (i.text.toList ++ ys) ∧
    pos + width xs = i.offset + Edits.growth before ∧ Spliced i.offset rest behind ys ∧
    Spliced pos cs (before ++ behind) (xs ++ ys) := by
  induction before generalizing pos cs out with
  | nil =>
    cases h with
    | @insertion _ taken rest ys _ _ hoffset hrest =>
      refine ⟨taken, rest, taken, ys, rfl, hoffset, rfl, hoffset.symm, hrest, ?_⟩
      rw [hoffset] at hrest
      exact hrest.prepend
  | cons j before ih =>
    cases h with
    | @insertion _ first cs out _ _ hoffset hrest =>
      obtain ⟨taken, rest, xs, ys, rfl, hi, rfl, hwidth, hbehind, hwithout⟩ := ih hrest
      refine ⟨first ++ taken, rest, first ++ (j.text.toList ++ xs), ys, by simp, ?_, by simp, ?_,
        hbehind, ?_⟩
      · rw [width_append]
        omega
      · rw [width_append, width_append, width_toList, Edits.growth]
        omega
      · simp only [List.append_assoc, List.cons_append]
        exact .insertion hoffset hwithout

end Spliced

/-- Insertions behind the next token have no effect on how a text goes on, if that token closes. -/
theorem closesOnLine_spliced {text : String} {pre post : List Token} {u t : Token}
    {taken rest out : List Char}
    {is : List Insertion} (htokens : scan text = pre ++ u :: t :: post) (ht : t.closes = true)
    (htext : text.toList = taken ++ rest) (hstop : u.stop = width taken)
    (h : Spliced u.stop rest is out)
    (his : ∀ i ∈ is, t.stop ≤ i.offset) :
    closesOnLine (.ofList out) = closesOnLine (.ofList rest) := by
  obtain ⟨hmark, hcloses⟩ := closes_iff.mp ht
  have hstar : t.text ≠ "*" := by rcases hcloses with h | h <;> simp [h]
  obtain ⟨taken', rest', htext', hstop', hrun⟩ :=
    Scan.exists_behind (s := .start text) htokens hmark hstar
  obtain ⟨mid, rfl, rfl⟩ := exists_of_width_le (htext.symm.trans htext')
    (hstop.symm.trans (hstop'.trans (Nat.zero_add _))).le
  obtain rfl : mid = [] := by
    by_contra hne
    have hpos := width_pos hne
    rw [hstop, width_append] at hstop'
    omega
  obtain ⟨read, behind, hread, hend, hreadable⟩ := Scan.exists_readable hrun ht
  rw [List.nil_append] at h ⊢
  dsimp only at hread hend hreadable
  subst hread
  obtain ⟨out', rfl, -⟩ := h.skip fun i hi => hend ▸ his i hi
  -- the token is read in both texts
  have hboth : ∀ cs, closesOnLine (.ofList (read ++ cs)) = (t.closes && t.lineBreak.isNone) := by
    intro cs
    rw [closesOnLine_eq u.stop, (hreadable cs trivial).run_eq]
    rfl
  rw [hboth, hboth]

end ParamThreading
