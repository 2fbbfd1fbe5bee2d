import ParamThreading.Program.Imports
import ParamThreading.Syntax.Traversal

/-!
# Names of types as they stand in the text

* `namedType?`  the name behind pointers, parentheses and type arguments;
* `methodExpressionType?`  the type in a method expression such as `T.M` or `(*p.T).M`;
* `Program.typeTarget`  where a named type is declared.
-/

namespace ParamThreading

/-- Behind pointers and parentheses, and before type arguments, stands the name of a type. -/
def typeNameStep (n : Node) : Option Way :=
  match n.kind with
  | .pointerType | .parenthesizedType => some .first
  | .genericType => some (.role .type)
  | _ => none

def namedType? (text : String) (type : Node) : Option String :=
  (type.reach? typeNameStep).bind fun n =>
    match n.kind with
    | .typeIdentifier | .qualifiedType => some (n.text text)
    | _ => none

/-- The receiver type of a method: that of its first receiver, nothing if it has no name. -/
def receiverType (text : String) (method : Node) : String :=
  let name := do
    let list ← method.child? .receiver
    let receiver ← list.codeChildren.head?
    let type ← receiver.child? .type
    namedType? text type
  name.getD ""

/-- Where a named type is declared. -/
inductive TypeTarget where
  | loaded (package : PackageId) (name : String)
  /-- In an imported package outside the program. -/
  | foreign
  /-- In a package that is not imported. -/
  | unknown
deriving DecidableEq, Repr, Inhabited

namespace Program

/-- A qualified name is looked up among the imports; a plain one belongs to the file's package. -/
def typeTarget (p : Program) (file : FileId) (type : String) : TypeTarget :=
  match Cut.cut? '.' type.toList with
  | none => .loaded (p.file file).package type
  | some (qualifier, name) =>
    match p.imported file (String.ofList qualifier) with
    | .loaded package => .loaded package (String.ofList name)
    | .foreign => .foreign
    | .notImported => .unknown

/-- Parentheses and stars around the type of a method expression. -/
def methodTypeStep (text : String) (n : Node) : Option Way :=
  match n.kind with
  | .parenthesizedExpression | .parenthesizedType | .pointerType => some .first
  | .unaryExpression => if n.textIn? .operator text = some "*" then some (.role .operand) else none
  | _ => none

/-- The type of a method expression, if it is declared in the program. -/
def methodExpressionType? (p : Program) (file : FileId) (function : Node) :
    Option (PackageId × String) := do
  let source := p.file file
  let qualified (type : Node) (first second : Role) : Option (PackageId × String) := do
    let qualifier ← type.textIn? first source.text
    let name ← type.textIn? second source.text
    match p.imported file qualifier with
    | .loaded package => some (package, name)
    | _ => none
  if function.kind ≠ .selectorExpression then none
  let operand ← function.child? .operand
  let type ← operand.reach? (methodTypeStep source.text)
  let (package, name) ← match type.kind with
    | .identifier | .typeIdentifier => some (source.package, type.text source.text)
    | .selectorExpression => qualified type .operand .field
    | .qualifiedType => qualified type .package .name
    | _ => none
  if (p.package package).types.contains name then some (package, name) else none

end Program

end ParamThreading
