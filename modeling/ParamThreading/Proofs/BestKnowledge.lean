import Mathlib.Data.List.Induction
import Mathlib.Order.Lattice.Nat
import Mathlib.Order.WithBot
import ParamThreading.Proofs.Occurrences

/-!
# What is known of a name after all that was told

Of the values that were told of a name the last one of the highest rank is kept, whatever was told
of other names in between.

* `Binding.best?`  the last of the values of the highest rank;
* `Bindings.rankOf`, `Bindings.rankOf_bind`  how much is known of a name, and that a step takes the
  maximum;
* `Bindings.get?_bindAll`  what is known after any run of steps;
* `Names.toldIn`, `Names.bindingsOf_eq_bindAll`  the steps of an item;
* `Bindings.bindAll_best`  the last and best value is kept, in every run and in every item.
-/

namespace ParamThreading

/-! ## the last of the best values -/

namespace Binding

variable {values : List Binding} {v : Binding}

/-- The last of the values of the highest rank. -/
def best? (values : List Binding) : Option Binding :=
  (values.filter fun v => values.all fun w => w.rank ≤ v.rank).getLast?

theorem of_best?_eq_some (h : best? values = some v) :
    v ∈ values ∧ ∀ w ∈ values, w.rank ≤ v.rank := by
  obtain ⟨hmem, hall⟩ := List.mem_filter.mp (List.mem_of_getLast? h)
  exact ⟨hmem, by simpa using hall⟩

/-- A value of at least the rank of those before it is the new best one. -/
theorem best?_concat_of_le (h : ∀ w ∈ values, w.rank ≤ v.rank) :
    best? (values ++ [v]) = some v := by
  have hall : (values ++ [v]).all (fun w => w.rank ≤ v.rank) = true := by simpa using h
  rw [best?, List.filter_append, List.filter_singleton, hall]
  exact List.getLast?_concat

theorem best?_concat_of_lt {w : Binding} (hw : w ∈ values) (hlt : v.rank < w.rank) :
    best? (values ++ [v]) = best? values := by
  have hv : (values ++ [v]).all (fun u => u.rank ≤ v.rank) = false := by
    rw [List.all_eq_false]
    exact ⟨w, List.mem_append_left _ hw, by simpa using hlt⟩
  have hold : values.filter (fun u => (values ++ [v]).all fun t => t.rank ≤ u.rank) =
      values.filter fun u => values.all fun t => t.rank ≤ u.rank := by
    refine List.filter_congr fun u _ => ?_
    rw [List.all_append, Bool.and_eq_left_iff_imp]
    intro hall
    have hle : w.rank ≤ u.rank := of_decide_eq_true (List.all_eq_true.mp hall w hw)
    simpa using (hlt.trans_le hle).le
  rw [best?, List.filter_append, List.filter_singleton, hv, hold]
  exact congrArg List.getLast? (List.append_nil _)

theorem isSome_best? : (best? values).isSome = true ↔ values ≠ [] := by
  induction values using List.reverseRecOn with
  | nil => simp [best?]
  | append_singleton values v ih =>
    by_cases h : ∀ w ∈ values, w.rank ≤ v.rank
    · simp [best?_concat_of_le h]
    · push Not at h
      obtain ⟨w, hw, hlt⟩ := h
      rw [best?_concat_of_lt hw hlt, ih]
      simp [List.ne_nil_of_mem hw]

end Binding

/-! ## runs -/

namespace Bindings

open Binding

def rankOf (bs : Bindings) (x : String) : WithBot Nat :=
  (bs.get? x).elim ⊥ fun value => WithBot.some value.rank

/-- A step brings what is known of its name up to the rank of what is told, and leaves other names
alone. -/
theorem rankOf_bind (bs : Bindings) (name x : String) (value : Binding) :
    (bs.bind name value).rankOf x =
    if name = x ∧ x ≠ "_" then max (bs.rankOf x) (WithBot.some value.rank) else bs.rankOf x := by
  unfold rankOf
  rw [get?_bind]
  by_cases hx : name = x ∧ x ≠ "_"
  · rw [if_pos hx]
    cases hget : bs.get? x with
    | none => simp [hx]
    | some old =>
      by_cases hle : old.rank ≤ value.rank
      · simp [hx, hle]
      · simp [hx, hle, (Nat.lt_of_not_le hle).le]
  · rw [if_neg hx, if_neg fun h => hx ⟨h.1, h.2.1⟩]

theorem rankOf_le_bind (bs : Bindings) (name x : String) (value : Binding) :
    bs.rankOf x ≤ (bs.bind name value).rankOf x := by
  rw [rankOf_bind]
  split
  · exact le_max_left _ _
  · exact le_rfl

theorem bindAll_append (bs : Bindings) (told more : List (String × Binding)) :
    bs.bindAll (told ++ more) = (bs.bindAll told).bindAll more :=
  List.foldl_append

theorem rankOf_le_bindAll (bs : Bindings) (told : List (String × Binding)) (x : String) :
    bs.rankOf x ≤ (bs.bindAll told).rankOf x := by
  induction told generalizing bs with
  | nil => exact le_rfl
  | cons t told ih => exact (rankOf_le_bind bs t.1 x t.2).trans (ih _)

def valuesOf (told : List (String × Binding)) (x : String) : List Binding :=
  (told.filter (·.1 = x)).map (·.2)

theorem valuesOf_concat (told : List (String × Binding)) (name x : String) (value : Binding) :
    valuesOf (told ++ [(name, value)]) x =
      if name = x then valuesOf told x ++ [value] else valuesOf told x := by
  unfold valuesOf
  by_cases h : name = x <;> simp [h]

/-- After a run the last and best value of a name is known. -/
theorem get?_bindAll (told : List (String × Binding)) (x : String) :
    (bindAll [] told).get? x = if x = "_" then none else best? (valuesOf told x) := by
  induction told using List.reverseRecOn with
  | nil => simp [bindAll, get?, valuesOf, best?]
  | append_singleton told t ih =>
    obtain ⟨name, value⟩ := t
    rw [bindAll_append]
    show ((bindAll [] told).bind name value).get? x = _
    rw [get?_bind, valuesOf_concat, ih]
    by_cases hx : x = "_"
    · simp [hx]
    by_cases hname : name = x
    · -- what is known so far is the best of the values before
      simp only [hname, hx, ne_eq, not_false_iff, true_and, if_true, if_false]
      by_cases hle : ∀ w ∈ valuesOf told x, w.rank ≤ value.rank
      · rw [best?_concat_of_le hle, if_pos]
        rw [Option.all_eq_true]
        intro best hbest
        simpa using hle best (of_best?_eq_some hbest).1
      · push Not at hle
        obtain ⟨w, hw, hlt⟩ := hle
        rw [best?_concat_of_lt hw hlt, if_neg]
        obtain ⟨best, hbest⟩ :=
          Option.isSome_iff_exists.mp (isSome_best?.mpr (List.ne_nil_of_mem hw))
        have hwbest := (of_best?_eq_some hbest).2 w hw
        simp [hbest, hlt.trans_le hwbest]
    · simp [hname]

theorem isSome_get?_bindAll (told : List (String × Binding)) (x : String) :
    ((bindAll [] told).get? x).isSome = true ↔ x ≠ "_" ∧ x ∈ told.map Prod.fst := by
  rw [get?_bindAll]
  by_cases hx : x = "_"
  · simp [hx]
  · rw [if_neg hx, isSome_best?]
    simp [valuesOf, hx]

theorem get?_bindAll_filter (told : List (String × Binding)) (x : String) :
    (bindAll [] (told.filter (·.1 = x))).get? x = (bindAll [] told).get? x := by
  rw [get?_bindAll, get?_bindAll]
  simp [valuesOf, List.filter_filter]

end Bindings

/-! ## the steps of an item -/

namespace Names

variable {names : Names} {file : FileId} {bs : Bindings} {x : String}

/-- What the places tell that are visited one after the other, each for what is known when it is
visited. -/
def toldAt (names : Names) (file : FileId) : Bindings → List Occurrence → List (String × Binding)
  | _, [] => []
  | bs, o :: os =>
    ((names.tells? file bs o).map fun value =>
      (o.name (names.program.file file).text, value)).toList
      ++ toldAt names file (names.recordAt file bs o) os

def toldIn (names : Names) (item : Item) : List (String × Binding) :=
  names.toldAt item.file [] item.occurrences

theorem recordAt_eq_bindAll (o : Occurrence) : names.recordAt file bs o = bs.bindAll
    ((names.tells? file bs o).map fun value =>
      (o.name (names.program.file file).text, value)).toList := by
  unfold recordAt
  cases names.tells? file bs o <;> rfl

theorem foldl_recordAt_eq_bindAll (os : List Occurrence) :
    os.foldl (names.recordAt file) bs = bs.bindAll (names.toldAt file bs os) := by
  induction os generalizing bs with
  | nil => rfl
  | cons o os ih => rw [List.foldl_cons, ih, toldAt, Bindings.bindAll_append, ← recordAt_eq_bindAll]

/-- The bindings of an item are those after all that its places tell. -/
theorem bindingsOf_eq_bindAll (item : Item) :
    names.bindingsOf item = Bindings.bindAll [] (names.toldIn item) := by
  rw [bindingsOf_eq, foldl_recordAt_eq_bindAll]
  rfl

theorem rankOf_le_bindNode (n : Node) : bs.rankOf x ≤ (names.bindNode file bs n).rankOf x := by
  rw [bindNode_eq, foldl_recordAt_eq_bindAll]
  exact Bindings.rankOf_le_bindAll bs _ x

theorem rankOf_le_foldl_bindNode (ns : List Node) :
    bs.rankOf x ≤ (ns.foldl (names.bindNode file) bs).rankOf x := by
  induction ns generalizing bs with
  | nil => exact le_rfl
  | cons n ns ih => exact (rankOf_le_bindNode n).trans ih

end Names

/-- Of the values that are told of a name the last one of the highest rank is kept. A name other
than the blank one is bound just if something is told of it, and what is told of other names makes
no difference. In an item no node makes less known of a name, and one without a place of the name
leaves it alone. -/
theorem Bindings.bindAll_best :
    (∀ told x, (bindAll [] told).get? x =
      if x = "_" then none else Binding.best? (valuesOf told x)) ∧
    (∀ told x, ((bindAll [] told).get? x).isSome = true ↔ x ≠ "_" ∧ x ∈ told.map Prod.fst) ∧
    (∀ told x, (bindAll [] (told.filter (·.1 = x))).get? x = (bindAll [] told).get? x) ∧
    (∀ told more x, (bindAll [] told).rankOf x ≤ (bindAll [] (told ++ more)).rankOf x) ∧
    ∀ (names : Names) (item : Item), names.bindingsOf item = bindAll [] (names.toldIn item) ∧
      ∀ x, (∀ earlier later : List Node, (earlier.foldl (names.bindNode item.file) []).rankOf x ≤
          ((earlier ++ later).foldl (names.bindNode item.file) []).rankOf x) ∧
        ∀ bs n, (∃ o ∈ n.occurrences, o.name (names.program.file item.file).text = x) ∨
          (names.bindNode item.file bs n).get? x = bs.get? x := by
  refine ⟨get?_bindAll, isSome_get?_bindAll, get?_bindAll_filter, fun told more x => ?_,
    fun names item =>
      ⟨Names.bindingsOf_eq_bindAll item, fun x => ⟨fun earlier later => ?_, fun bs n => ?_⟩⟩⟩
  · rw [bindAll_append]
    exact rankOf_le_bindAll _ more x
  · rw [List.foldl_append]
    exact Names.rankOf_le_foldl_bindNode later
  · by_cases h : ∃ o ∈ n.occurrences, o.name (names.program.file item.file).text = x
    · exact .inl h
    · rw [Names.bindNode_eq]
      exact .inr (Names.foldl_recordAt_other fun o ho hname => h ⟨o, ho, hname⟩)

example : (Bindings.bindAll [] [("f", .foreign), ("g", .literal 7), ("f", .type "T"),
      ("f", .unknown)]).get? "f" =
    some (.type "T") := by decide

end ParamThreading
