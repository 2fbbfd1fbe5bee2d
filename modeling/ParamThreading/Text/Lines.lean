import ParamThreading.Text.Cut

/-!
# The lines of a text

A line is given without its line break, which is a line feed with an optional carriage return before
it. A line break at the very end begins no further line.
-/

namespace ParamThreading

namespace Lines

/-- A line without the carriage return at its end. -/
def withoutReturn (line : List Char) : List Char :=
  if line.getLast? == some '\r' then line.dropLast else line

def of (cs : List Char) : List (List Char) :=
  match (Cut.fields '\n' cs).reverse with
  | [] => []
  | [] :: ended => ended.reverse.map withoutReturn
  | last :: ended => ended.reverse.map withoutReturn ++ [last]

end Lines

end ParamThreading
