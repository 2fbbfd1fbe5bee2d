import Mathlib.Data.String.Basic
import ParamThreading.Proofs.LoadedProgram

/-!
# Paths and packages in order

Components are compared by their sort and then by their characters, paths and directories component
by component, packages by directory and then by name. Each of these is a total order up to equality,
so that what is sorted by it does not depend on the order it came in.

* `Component.compare_eq`, `Component.compareAll_eq`  comparisons as lexicographic ones;
* `Program.groups`  the packages of files, `Program.groups_eq_of_perm`  from files in any order.
-/

namespace ParamThreading

open Std

/-! ## components -/

namespace Component

/-- What names are compared by; other components are the only ones of their sort. -/
def spelling : Component → String
  | name s => s
  | _ => ""

theorem compare_eq : compare = compareLex (compareOn compare.rank) (compareOn spelling) := by
  funext a b
  cases a <;> cases b <;> rfl

instance : TransCmp compare := by
  rw [compare_eq]
  infer_instance

theorem eq_of_compare {a b : Component} (h : compare a b = .eq) : a = b := by
  rw [compare_eq, compareLex, Ordering.then_eq_eq] at h
  have hrank : compare.rank a = compare.rank b := LawfulEqCmp.eq_of_compare h.1
  have hspelling : a.spelling = b.spelling := LawfulEqCmp.eq_of_compare h.2
  cases a <;> cases b <;> simp_all [compare.rank, spelling]

instance : LawfulEqCmp compare where
  eq_of_compare := eq_of_compare

theorem compareAll_eq : compareAll = List.compareLex compare := by
  funext as bs
  induction as generalizing bs with
  | nil => cases bs <;> rfl
  | cons a as ih =>
    cases bs with
    | nil => rfl
    | cons b bs => rw [compareAll, ih, List.compareLex_cons_cons]

instance : TransCmp compareAll := by
  rw [compareAll_eq]
  infer_instance

instance : LawfulEqCmp compareAll := by
  rw [compareAll_eq]
  infer_instance

end Component

/-! ## packages -/

namespace Program

def compareGroups : List Component × String → List Component × String → Ordering :=
  compareLex (fun a b => Component.compareAll a.1 b.1) (compareOn (·.2))

instance : TransCmp fun a b : List Component × String => Component.compareAll a.1 b.1 where
  eq_swap := OrientedCmp.eq_swap
  isLE_trans := TransCmp.isLE_trans

instance : TransCmp compareGroups :=
  inferInstanceAs (TransCmp (compareLex _ _))

instance : LawfulEqCmp compareGroups where
  eq_of_compare := by
    rintro ⟨dir, name⟩ ⟨dir', name'⟩ h
    obtain ⟨hdir, hname⟩ := Ordering.then_eq_eq.mp h
    have hdir : dir = dir' := LawfulEqCmp.eq_of_compare hdir
    have hname : name = name' := LawfulEqCmp.eq_of_compare hname
    rw [hdir, hname]

def groups (parsed : List ParsedFile) : List (List Component × String) :=
  (parsed.map (·.group)).eraseDups.mergeSort groupLe

theorem nodup_groups (parsed : List ParsedFile) : (groups parsed).Nodup :=
  (List.mergeSort_perm _ _).nodup_iff.mpr (nodup_eraseDups _)

theorem mem_groups {parsed : List ParsedFile} {group : List Component × String} :
    group ∈ groups parsed ↔ ∃ f ∈ parsed, f.group = group := by
  rw [groups, List.mem_mergeSort, List.mem_eraseDups, List.mem_map]

theorem groups_eq_of_perm {parsed parsed' : List ParsedFile} (h : parsed'.Perm parsed) :
    groups parsed' = groups parsed := by
  have hperm := eraseDups_perm (h.map (·.group))
  exact mergeSort_eq_of_keys compareGroups id (by rw [List.map_id]; exact nodup_eraseDups _) hperm

end Program

end ParamThreading
