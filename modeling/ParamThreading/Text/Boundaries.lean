/-!
# Sets of code points by their boundaries

A set of code points as the increasing list of the places where membership changes: the set is
entered at the first place, left at the second, entered again at the third, and so on.

* `Boundaries.holds`  membership of a code point.
-/

namespace ParamThreading

namespace Boundaries

/-- A code point belongs to the set iff an odd number of changes lies at or below it. -/
def holds (changes : List Nat) (code : Nat) : Bool :=
  (changes.takeWhile (· ≤ code)).length % 2 == 1

end Boundaries

end ParamThreading
