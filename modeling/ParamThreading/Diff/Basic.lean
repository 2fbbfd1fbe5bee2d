/-!
# Differences as runs of equal, deleted and inserted items

How one sequence differs from another is told by runs, each with its positions in both.

* `Diff.Run`  a run, with its positions in both sequences;
* `Diff.Span`  parts of both sequences that are compared;
* `Diff.matching`  how long two parts agree, from their beginnings or from their ends.
-/

namespace ParamThreading

namespace Diff

inductive RunKind where
  | equal
  | delete
  | insert
deriving DecidableEq, Repr, Inhabited

/-- A run of items. A deletion stands before a position of the new sequence, an insertion before one
of the old. -/
structure Run where
  kind : RunKind
  old : Nat
  new : Nat
  length : Nat
deriving DecidableEq, Repr, Inhabited

/-- How many numbers from zero on, and below a bound, have a property. -/
def countWhile (holds : Nat → Bool) : Nat → Nat → Nat
  | 0, t => t
  | n + 1, t => if holds t then countWhile holds n (t + 1) else t

variable {α : Type} [BEq α]

/-- How many items agree from two positions on, within two lengths. -/
def matching (a : Array α) (i n : Nat) (b : Array α) (j m : Nat) : Nat :=
  countWhile (fun t => a[i + t]? == b[j + t]?) (min n m) 0

def matchingBack (a : Array α) (i n : Nat) (b : Array α) (j m : Nat) : Nat :=
  countWhile (fun t => a[i - 1 - t]? == b[j - 1 - t]?) (min n m) 0

/-- Parts of both sequences, by their beginnings and lengths. -/
structure Span where
  old : Nat
  oldLength : Nat
  new : Nat
  newLength : Nat
deriving DecidableEq, Repr, Inhabited

end Diff

end ParamThreading
