import Mathlib.Data.List.Forall2
import Mathlib.Data.List.Nodup
import Mathlib.Data.List.TakeWhile

/-!
# Lists, and steps that can fail

What is used of lists and of `Except` all over the theory and says nothing about programs.

* `bind_eq_ok`, `mapM_eq_ok`  steps that succeed, one after the other;
* `flatMap_filter_ite`, `filter_filterMap_eq_map`  lists of which a part is kept;
* `mergeSort_eq_of_antisymm`, `eraseDups_perm`  operations that forget the order of a list;
* `takeWhile_exchange`, `dropWhile_exchange`  the beginning of a list does not depend on its end.
-/

namespace ParamThreading

open Std

/-! ## steps that can fail -/

section
variable {ε α β : Type}

theorem bind_eq_ok {x : Except ε α} {f : α → Except ε β} {b : β} :
    x >>= f = .ok b ↔ ∃ a, x = .ok a ∧ f a = .ok b := by
  cases x with
  | error e => exact ⟨nofun, nofun⟩
  | ok a =>
    refine ⟨fun h => ⟨a, rfl, h⟩, ?_⟩
    rintro ⟨_, ⟨⟩, h⟩
    exact h

theorem bind_eq_error {x : Except ε α} {f : α → Except ε β} {e : ε} :
    x >>= f = .error e ↔ x = .error e ∨ ∃ a, x = .ok a ∧ f a = .error e := by
  cases x with
  | error e' =>
    constructor
    · intro h
      cases h
      exact .inl rfl
    · rintro (⟨⟨⟩⟩ | ⟨a, ⟨⟩, -⟩)
      rfl
  | ok a =>
    constructor
    · intro h
      exact .inr ⟨a, rfl, h⟩
    · rintro (⟨⟨⟩⟩ | ⟨_, ⟨⟩, h⟩)
      exact h

theorem any_toOption {x : Except ε α} {f : α → Bool} :
    x.toOption.any f = true ↔ ∃ a, x = .ok a ∧ f a = true := by
  cases x with
  | error e => exact ⟨nofun, nofun⟩
  | ok a =>
    refine ⟨fun h => ⟨a, rfl, h⟩, ?_⟩
    rintro ⟨_, ⟨⟩, h⟩
    exact h

variable {f : α → Except ε β} {xs : List α} {ys : List β}

theorem mapM_eq_ok : xs.mapM f = .ok ys ↔ List.Forall₂ (fun x y => f x = .ok y) xs ys := by
  induction xs generalizing ys with
  | nil =>
    rw [List.mapM_nil, List.forall₂_nil_left_iff]
    exact ⟨fun h => by cases h; rfl, fun h => by rw [h]; rfl⟩
  | cons x xs ih =>
    rw [List.mapM_cons, List.forall₂_cons_left_iff, bind_eq_ok]
    constructor
    · rintro ⟨y, hy, h⟩
      obtain ⟨zs, hzs, h⟩ := bind_eq_ok.mp h
      cases h
      exact ⟨y, zs, hy, ih.mp hzs, rfl⟩
    · rintro ⟨y, zs, hy, hzs, rfl⟩
      exact ⟨y, hy, bind_eq_ok.mpr ⟨zs, ih.mpr hzs, rfl⟩⟩

theorem mem_mapM (h : xs.mapM f = .ok ys) {y : β} : y ∈ ys ↔ ∃ x ∈ xs, f x = .ok y := by
  induction mapM_eq_ok.mp h with
  | nil => simp
  | @cons x z xs ys hxz hrest ih =>
    rw [List.mem_cons, ih (mapM_eq_ok.mpr hrest), List.exists_mem_cons_iff, hxz, Except.ok.injEq,
      eq_comm]

theorem exists_of_mem_mapM (h : xs.mapM f = .ok ys) {x : α} (hx : x ∈ xs) :
    ∃ y ∈ ys, f x = .ok y := by
  induction mapM_eq_ok.mp h with
  | nil => cases hx
  | @cons x' y xs ys hxy hrest ih =>
    rcases List.mem_cons.mp hx with rfl | hx
    · exact ⟨y, List.mem_cons_self, hxy⟩
    · obtain ⟨y', hy', hx'⟩ := ih (mapM_eq_ok.mpr hrest) hx
      exact ⟨y', List.mem_cons_of_mem _ hy', hx'⟩

theorem exists_mapM (h : ∀ x ∈ xs, ∃ y, f x = .ok y) : ∃ ys, xs.mapM f = .ok ys := by
  induction xs with
  | nil => exact ⟨[], rfl⟩
  | cons x xs ih =>
    obtain ⟨y, hy⟩ := h x List.mem_cons_self
    obtain ⟨ys, hys⟩ := ih fun x hx => h x (List.mem_cons_of_mem _ hx)
    exact ⟨y :: ys, mapM_eq_ok.mpr (.cons hy (mapM_eq_ok.mp hys))⟩

end

/-! ## parts of lists -/

section
variable {α β γ : Type}

theorem filter_eq_singleton {l : List α} {q : α → Bool} {a : α}
    (h : l.Pairwise fun x y => q x = true → q y = false) (ha : a ∈ l) (hq : q a = true) :
    l.filter q = [a] := by
  induction l with
  | nil => cases ha
  | cons x l ih =>
    obtain ⟨hx, hl⟩ := List.pairwise_cons.mp h
    by_cases hqx : q x = true
    · have hnil : l.filter q = [] := by
        rw [List.filter_eq_nil_iff]
        intro y hy
        rw [hx y hy hqx]
        decide
      rw [List.filter_cons_of_pos hqx, hnil]
      rcases List.mem_cons.mp ha with rfl | ha
      · rfl
      · rw [hx a ha hqx] at hq
        cases hq
    · rw [List.filter_cons_of_neg hqx]
      rcases List.mem_cons.mp ha with rfl | ha
      · exact absurd hq hqx
      · exact ih hl ha

theorem flatMap_filter_ite (q : α → Bool) (f : α → List β) (xs : List α) :
    (xs.filter q).flatMap f = xs.flatMap fun x => if q x then f x else [] := by
  induction xs with
  | nil => rfl
  | cons x xs ih => cases hq : q x <;> simp [hq, ih]

theorem flatMap_filter_of_nil {f : α → List β} {q : α → Bool} {xs : List α}
    (h : ∀ x ∈ xs, q x = false → f x = []) : (xs.filter q).flatMap f = xs.flatMap f := by
  rw [flatMap_filter_ite]
  refine List.flatMap_congr fun x hx => ?_
  cases hq : q x with
  | true => rfl
  | false => exact (h x hx hq).symm

theorem filter_filterMap_eq_map {f : α → Option β} {q : β → Bool} {r : α → Bool} {g : α → β}
    {xs : List α} (h : ∀ x ∈ xs, (f x).filter q = if r x then some (g x) else none) :
    (xs.filterMap f).filter q = (xs.filter r).map g := by
  induction xs with
  | nil => rfl
  | cons x xs ih =>
    have hx := h x List.mem_cons_self
    have hxs := ih fun y hy => h y (List.mem_cons_of_mem x hy)
    cases hf : f x with
    | none =>
      rw [hf] at hx
      by_cases hr : r x <;> simp_all
    | some b =>
      rw [hf] at hx
      by_cases hr : r x <;> by_cases hq : q b <;> simp_all [Option.filter]

theorem map_filterMap_eq {g : α → Option β} {m : β → γ} {n : α → γ} {xs : List α}
    (h : ∀ x ∈ xs, ∃ y, g x = some y ∧ m y = n x) : (xs.filterMap g).map m = xs.map n := by
  induction xs with
  | nil => rfl
  | cons x xs ih =>
    obtain ⟨y, hy, hm⟩ := h x List.mem_cons_self
    rw [List.filterMap_cons_some hy, List.map_cons, List.map_cons, hm,
      ih fun x hx => h x (List.mem_cons_of_mem _ hx)]

theorem foldl_zipIdx_fst (f : β → α → β) (xs : List α) (b : β) :
    xs.zipIdx.foldl (fun b x => f b x.1) b = xs.foldl f b := by
  rw [← List.foldl_map, List.zipIdx_map_fst]

theorem lookup_eq_of_forall [BEq α] [LawfulBEq α] {l : List (α × β)} {a : α} {b : β}
    (h : ∀ y ∈ l, y.1 = a → y.2 = b) (hmem : (a, b) ∈ l) : l.lookup a = some b := by
  induction l with
  | nil => cases hmem
  | cons y l ih =>
    obtain ⟨a', b'⟩ := y
    rw [List.lookup_cons]
    cases heq : a == a' with
    | true => exact congrArg some (h _ List.mem_cons_self (beq_iff_eq.mp heq).symm)
    | false =>
      rcases List.mem_cons.mp hmem with hmem | hmem
      · cases hmem
        rw [beq_self_eq_true] at heq
        cases heq
      · exact ih (fun y hy => h y (List.mem_cons_of_mem _ hy)) hmem

theorem take_append_cons_drop {xs : List α} {k : Nat} {a : α} (h : xs[k]? = some a) :
    xs.take k ++ a :: xs.drop (k + 1) = xs := by
  obtain ⟨hlt, rfl⟩ := List.getElem?_eq_some_iff.mp h
  rw [← List.drop_eq_getElem_cons, List.take_append_drop]

theorem le_foldr_max {n : Nat} {ns : List Nat} (h : n ∈ ns) : n ≤ ns.foldr max 0 := by
  induction ns with
  | nil => cases h
  | cons m ns ih =>
    rw [List.foldr_cons]
    rcases List.mem_cons.mp h with rfl | h
    · exact Nat.le_max_left _ _
    · exact (ih h).trans (Nat.le_max_right _ _)

end

/-! ## lists in any order -/

section
variable {α κ : Type} {l l' : List α}

/-- Sorting forgets the order of a list whose members are never on a par. -/
theorem mergeSort_eq_of_antisymm {le : α → α → Bool}
    (htrans : ∀ a b c, le a b = true → le b c = true → le a c = true)
    (htotal : ∀ a b, (le a b || le b a) = true)
    (hanti : ∀ a ∈ l, ∀ b ∈ l, le a b = true → le b a = true → a = b) (h : l'.Perm l) :
    l'.mergeSort le = l.mergeSort le := by
  refine List.Perm.eq_of_pairwise (fun a b ha hb hab hba => ?_)
    (List.pairwise_mergeSort htrans htotal l') (List.pairwise_mergeSort htrans htotal l)
    (((List.mergeSort_perm l' _).trans h).trans (List.mergeSort_perm l _).symm)
  exact hanti a (h.mem_iff.mp (List.mem_mergeSort.mp ha)) b (List.mem_mergeSort.mp hb) hab hba

variable (cmp : κ → κ → Ordering)

theorem isLE_total [OrientedCmp cmp] (a b : κ) : ((cmp a b).isLE || (cmp b a).isLE) = true := by
  have hswap : cmp b a = (cmp a b).swap := OrientedCmp.eq_swap
  rw [hswap]
  cases cmp a b <;> rfl

theorem mergeSort_eq_of_keys [TransCmp cmp] [LawfulEqCmp cmp] (key : α → κ)
    (hkeys : (l.map key).Nodup) (h : l'.Perm l) :
    l'.mergeSort (fun a b => (cmp (key a) (key b)).isLE) =
      l.mergeSort (fun a b => (cmp (key a) (key b)).isLE) := by
  refine mergeSort_eq_of_antisymm (fun a b c => TransCmp.isLE_trans) (fun a b => isLE_total cmp _ _)
    (fun a ha b hb hab hba => ?_) h
  have hsame : key a = key b := LawfulEqCmp.eq_of_compare (OrientedCmp.isLE_antisymm hab hba)
  exact List.inj_on_of_nodup_map hkeys ha hb hsame

variable [BEq α] [LawfulBEq α]

theorem nodup_eraseDups (xs : List α) : xs.eraseDups.Nodup := by
  induction hn : xs.length using Nat.strong_induction_on generalizing xs with
  | _ n ih =>
    cases xs with
    | nil => exact List.nodup_nil
    | cons x xs =>
      rw [List.eraseDups_cons]
      refine List.nodup_cons.mpr ⟨?_, ih _ ?_ _ rfl⟩
      · rw [List.mem_eraseDups, List.mem_filter]
        simp
      · rw [← hn]
        exact Nat.lt_succ_of_le (List.length_filter_le _ _)

theorem eraseDups_perm (h : l'.Perm l) : l'.eraseDups.Perm l.eraseDups := by
  rw [List.perm_ext_iff_of_nodup (nodup_eraseDups l') (nodup_eraseDups l)]
  intro a
  rw [List.mem_eraseDups, List.mem_eraseDups, h.mem_iff]

end

/-! ## beginnings of lists -/

section
variable {α : Type} {p : α → Bool} {u v : List α} {a c : α}

theorem eq_false_of_all {cs : List α} (h : (cs.all fun c => !p c) = true) :
    ∀ c ∈ cs, p c = false := by
  intro c hc
  simpa using List.all_eq_true.mp h c hc

theorem head?_ne_some {cs : List α} (h : ∀ rest, cs = a :: rest → False) :
    cs.head? ≠ some a := by
  intro hhead
  cases cs with
  | nil => cases hhead
  | cons c cs =>
    cases hhead
    exact h cs rfl

theorem takeWhile_ends {cs : List α} (h : cs.drop (cs.takeWhile p).length = c :: v) :
    p c = false := by
  have hsplit : cs = cs.takeWhile p ++ c :: v := by
    rw [← h]
    exact List.prefix_iff_eq_append.mp (List.takeWhile_prefix _) |>.symm
  cases hp : p c with
  | false => rfl
  | true =>
    -- otherwise this element would have been taken, too
    have hall : ∀ d ∈ cs.takeWhile p, p d = true := fun d hd => List.mem_takeWhile_imp hd
    have htake := congrArg (List.takeWhile p) hsplit
    rw [List.takeWhile_append_of_pos hall, List.takeWhile_cons_of_pos hp] at htake
    simpa using congrArg List.length htake

theorem takeWhile_exchange (v' : List α) (h : ((u ++ c :: v).takeWhile p).length ≤ u.length) :
    (u ++ c :: v').takeWhile p = (u ++ c :: v).takeWhile p := by
  induction u with
  | nil =>
    cases hc : p c with
    | false => simp [hc]
    | true => simp [hc] at h
  | cons d u ih =>
    cases hd : p d with
    | false => simp [hd]
    | true =>
      simp only [List.cons_append, List.takeWhile_cons_of_pos hd, List.length_cons,
        Nat.add_le_add_iff_right] at h ⊢
      rw [ih h]

theorem forall_of_length_le_takeWhile (h : u.length ≤ ((u ++ v).takeWhile p).length) :
    ∀ d ∈ u, p d = true := by
  induction u with
  | nil => exact nofun
  | cons d u ih =>
    cases hd : p d with
    | false => simp [hd] at h
    | true =>
      simp only [List.cons_append, List.takeWhile_cons_of_pos hd, List.length_cons,
        Nat.add_le_add_iff_right] at h
      intro e he
      rcases List.mem_cons.mp he with rfl | he
      · exact hd
      · exact ih h e he

theorem length_le_takeWhile (h : ∀ d ∈ u, p d = true) :
    u.length ≤ ((u ++ v).takeWhile p).length := by
  rw [List.takeWhile_append_of_pos h, List.length_append]
  exact Nat.le_add_right ..

theorem dropWhile_exchange {cs rest after : List α} (rest' : List α)
    (h : (cs ++ rest).dropWhile p = after ++ rest) (hafter : after ≠ []) :
    (cs ++ rest').dropWhile p = after ++ rest' := by
  induction cs with
  | nil =>
    have hlen := (List.dropWhile_suffix (l := rest) p).length_le
    have hpos := List.length_pos_of_ne_nil hafter
    rw [← List.nil_append rest, h, List.length_append] at hlen
    simp only [List.nil_append] at hlen
    omega
  | cons c cs ih =>
    cases hc : p c with
    | true =>
      simp only [List.cons_append, List.dropWhile_cons_of_pos hc] at h ⊢
      exact ih h
    | false =>
      have hneg : ¬p c = true := by simp [hc]
      simp only [List.cons_append, List.dropWhile_cons_of_neg hneg] at h ⊢
      rw [← List.cons_append] at h ⊢
      rw [List.append_cancel_right h]

theorem take_append_of_getElem? {n : Nat} (h : u[n]? = some c) (v : List α) :
    (u.take (n + 1) ++ v).take n = u.take n ∧ (u.take (n + 1) ++ v)[n]? = some c := by
  obtain ⟨hlt, rfl⟩ := List.getElem?_eq_some_iff.mp h
  have hlen : (u.take (n + 1)).length = n + 1 := List.length_take_of_le hlt
  refine ⟨?_, ?_⟩
  · rw [List.take_append_of_le_length (by omega), List.take_take, Nat.min_eq_left (by omega)]
  · rw [List.getElem?_append_left (by omega), List.getElem?_take_of_lt (Nat.lt_succ_self n), h]

end

end ParamThreading
