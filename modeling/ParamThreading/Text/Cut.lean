/-!
# Cutting a list of characters

* `cut?`, `cutLast?`  the parts around the first and the last occurrence of a character;
* `fields`  the parts between all occurrences;
* `afterStart?`, `beforeEnd?`  what is left without a given beginning or end.
-/

namespace ParamThreading

namespace Cut

/-- The parts before and after the first occurrence of a character. -/
def cut? (sep : Char) : List Char → Option (List Char × List Char)
  | [] => none
  | c :: cs => if c = sep then some ([], cs) else (cut? sep cs).map fun (a, b) => (c :: a, b)

def cutLast? (sep : Char) (cs : List Char) : Option (List Char × List Char) :=
  (cut? sep cs.reverse).map fun (a, b) => (b.reverse, a.reverse)

/-- The parts between the occurrences of a character. -/
def fields (sep : Char) : List Char → List (List Char)
  | [] => [[]]
  | c :: cs =>
    if c = sep then [] :: fields sep cs
    else match fields sep cs with
      | first :: rest => (c :: first) :: rest
      | [] => [[c]]

def afterStart? : List Char → List Char → Option (List Char)
  | [], cs => some cs
  | b :: bs, c :: cs => if b = c then afterStart? bs cs else none
  | _ :: _, [] => none

def beforeEnd? (ending cs : List Char) : Option (List Char) :=
  (afterStart? ending.reverse cs.reverse).map List.reverse

theorem cut?_eq_some {sep : Char} {cs a b : List Char} (h : cut? sep cs = some (a, b)) :
    cs = a ++ sep :: b := by
  induction cs generalizing a with
  | nil => simp [cut?] at h
  | cons c cs ih =>
    by_cases hc : c = sep
    · simp only [cut?, hc, if_true, Option.some.injEq, Prod.mk.injEq] at h
      simp [← h.1, ← h.2, hc]
    · simp only [cut?, hc, if_false, Option.map_eq_some_iff, Prod.mk.injEq, Prod.exists] at h
      obtain ⟨a', b', h', rfl, rfl⟩ := h
      simp [ih h']

theorem afterStart?_eq_some {bs cs rest : List Char} :
    afterStart? bs cs = some rest ↔ cs = bs ++ rest := by
  induction bs generalizing cs with
  | nil => simp [afterStart?]
  | cons b bs ih =>
    cases cs with
    | nil => simp [afterStart?]
    | cons c cs =>
      by_cases h : b = c
      · simp [afterStart?, h, ih]
      · simp [afterStart?, h, Ne.symm h]

end Cut

end ParamThreading
