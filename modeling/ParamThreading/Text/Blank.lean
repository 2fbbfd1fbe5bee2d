/-!
# Blank characters

They are those of the Unicode property White_Space. Texts are trimmed and split by them.
-/

namespace ParamThreading

namespace Blank

/-- A character of the property White_Space. -/
def holds (c : Char) : Bool :=
  let n := c.toNat
  (9 ≤ n && n ≤ 13) || n == 0x20 || n == 0x85 || n == 0xa0 || n == 0x1680 ||
    (0x2000 ≤ n && n ≤ 0x200a) || n == 0x2028 || n == 0x2029 || n == 0x202f || n == 0x205f ||
    n == 0x3000

def trim (cs : List Char) : List Char :=
  ((cs.dropWhile holds).reverse.dropWhile holds).reverse

def words (cs : List Char) : List (List Char) :=
  (cs.splitBy fun a b => holds a == holds b).filter fun run => !run.all holds

end Blank

end ParamThreading
