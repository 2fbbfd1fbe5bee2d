import ParamThreading.Analysis.TypeName
import ParamThreading.Edit.Basic
import ParamThreading.Position.Address
import ParamThreading.Text.Blank

/-!
# New first elements of parameter and argument lists

* `Edits.addParameter`  a parameter in front of a parameter list;
* `Edits.addArgument`  an argument in front of the arguments of a call, or behind the receiver in a
  call of a method expression.
-/

namespace ParamThreading

/-- What came of an edit. -/
inductive Outcome where
  | applied
  | alreadyPresent
deriving DecidableEq, Repr, Inhabited

/-- Types are the same if they are the same words. -/
def sameType (a b : String) : Bool :=
  Blank.words a.toList == Blank.words b.toList

/-- The first name and the type of a parameter declaration; none without a name. -/
def firstParameter? (text : String) (declaration : Node) : Option (String × String) := do
  if declaration.kind ≠ .parameterDeclaration ∧
      declaration.kind ≠ .variadicParameterDeclaration then none
  let name ← (declaration.childrenIn .name).head?
  let type ← declaration.child? .type
  return (name.text text, type.text text)

/-- The text between the last line break before an offset and the offset. -/
def indentation (text : String) (offset : Nat) : String :=
  let before := (Node.slice text 0 offset).toList
  String.ofList (before.reverse.takeWhile (· != '\n')).reverse

/-- The text of a new first element: on a line of its own if the first element stands on a later
line than the opening of the list. -/
def elementText (source : SourceFile) (item : String) (list : Node) (first : Option Node)
    (isOnly : Bool) : String :=
  if isOnly then item
  else match first with
    | some f =>
      if (source.lines.position list.start).line < (source.lines.position f.start).line then
        "\n" ++ indentation source.text f.start ++ item ++ ","
      else item ++ ", "
    | none => item ++ ", "

def Address.expectKind (program : Program) (a : Address) (kind : Kind) : Except Failure Node :=
  match a.node? with
  | some n =>
    if n.kind = kind then .ok n else .error (.wrongKind kind (some n.kind) (a.location program))
  | none => .error (.wrongKind kind none (a.location program))

namespace Edits

/-- The parameter comes first in the list: it was inserted last, or nothing was inserted and it is
declared first. -/
def hasParameter (e : Edits) (text : String) (file : FileId) (offset : Nat) (declared : List Node)
    (name type : String) : Bool :=
  match e.leading? file offset with
  | some (.parameter n t) => n == name && sameType t type
  | some (.argument _) => false
  | none => (declared.head?.bind (firstParameter? text)).any fun (n, t) =>
      n == name && sameType t type

/-- The argument comes next at an offset: it was inserted last, or nothing was inserted and it is
given there. -/
def hasArgument (e : Edits) (text : String) (file : FileId) (offset : Nat) (given : Option Node)
    (name : String) : Bool :=
  match e.leading? file offset with
  | some (.argument n) => n == name
  | some (.parameter _ _) => false
  | none => given.any fun n => n.kind == .identifier && n.text text == name

def putParameter (e : Edits) (program : Program) (file : FileId) (list : Node) (name type : String)
    (skipIfPresent : Bool) : Outcome × Edits :=
  let source := program.file file
  let offset := list.start + 1
  let declared := list.codeChildren
  if skipIfPresent && e.hasParameter source.text file offset declared name type then
    (.alreadyPresent, e)
  else
    let isOnly := declared.isEmpty && (e.leading? file offset).isNone
    let text := elementText source (name ++ " " ++ type) list declared.head? isOnly
    (.applied, e.push file ⟨offset, .parameter name type, text⟩)

/-- Puts an argument in front of the arguments of a call, or behind the first of them if what is
called is written as a method expression. -/
def putArgument (e : Edits) (program : Program) (file : FileId) (call list : Node) (name : String)
    (skipIfPresent : Bool) : Outcome × Edits :=
  let source := program.file file
  let given := list.codeChildren
  let isMethodExpression :=
    ((call.child? .function).bind (program.methodExpressionType? file)).isSome
  match isMethodExpression, given with
  | true, receiver :: rest =>
    let offset := receiver.stop
    if skipIfPresent && e.hasArgument source.text file offset rest.head? name then
      (.alreadyPresent, e)
    else (.applied, e.push file ⟨offset, .argument name, ", " ++ name⟩)
  | _, _ =>
    let offset := list.start + 1
    if skipIfPresent && e.hasArgument source.text file offset given.head? name then
      (.alreadyPresent, e)
    else
      let isOnly := given.isEmpty && (e.leading? file offset).isNone
      let text := elementText source name list given.head? isOnly
      (.applied, e.push file ⟨offset, .argument name, text⟩)

def addParameter (e : Edits) (program : Program) (a : Address) (name type : String)
    (skipIfPresent : Bool) : Except Failure (Outcome × Edits) := do
  let list ← a.expectKind program .parameterList
  return e.putParameter program a.file list name type skipIfPresent

def addArgument (e : Edits) (program : Program) (a : Address) (name : String)
    (skipIfPresent : Bool) : Except Failure (Outcome × Edits) := do
  let call ← a.expectKind program .callExpression
  match call.child? .arguments with
  | none => throw (.wrongKind .callExpression (some call.kind) (a.location program))
  | some list => return e.putArgument program a.file call list name skipIfPresent

end Edits

end ParamThreading
