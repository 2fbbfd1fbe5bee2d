import ParamThreading.Failure
import ParamThreading.Text.Blank

/-!
# What the user asks for

A request names a parameter to add, and where to begin.

* `Request.parse`  reads the parameter, a name and a type with a blank between.
-/

namespace ParamThreading

structure Request where
  name : String
  type : String
  position : String
  /-- Leave lists alone that begin with the parameter already. -/
  skipIfPresent : Bool
deriving DecidableEq, Repr, Inhabited

namespace Request

/-- The name ends at the first space; the type is the rest. -/
def parse (arg position : String) (skipIfPresent : Bool) : Except Failure Request :=
  match Cut.cut? ' ' (Blank.trim arg.toList) with
  | none => .error (.invalidArgument arg)
  | some (a, b) =>
    let name := Blank.trim a
    let type := Blank.trim b
    if name.isEmpty || type.isEmpty then .error (.invalidArgument arg)
    else .ok ⟨String.ofList name, String.ofList type, position, skipIfPresent⟩

end Request

end ParamThreading
