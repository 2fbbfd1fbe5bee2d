import ParamThreading.Position.Descriptor
import ParamThreading.Program.Basic

/-!
# Addresses: ranges of bytes and the nodes around them

* `Address`  a range, the innermost named node that encloses it, and that node's ancestors;
* `Address.key`, `Address.callKey`  what addresses are told apart by;
* `resolveRange`, `resolve`  the address of a range and of a written position;
* `signatureOf`  the parameter list of the declaration around an address.
-/

namespace ParamThreading

/-- A byte offset in a file. -/
structure Key where
  file : FileId
  offset : Nat
deriving DecidableEq, Repr, Inhabited

namespace Key

/-- By file, then by offset. -/
def le (a b : Key) : Bool :=
  a.file < b.file || (a.file == b.file && a.offset ≤ b.offset)

end Key

/-- A range of bytes in a file with the nodes that enclose it, the innermost first and the root of
the file last. -/
structure Address where
  file : FileId
  start : Nat
  stop : Nat
  path : List Node
  /-- The range is the extent of the innermost node. -/
  exact : Bool
deriving Inhabited

namespace Address

def node? (a : Address) : Option Node :=
  a.path.head?

/-- Addresses are the same place if they start at the same offset. -/
def key (a : Address) : Key :=
  ⟨a.file, a.start⟩

/-- A call is known by its opening parenthesis, since calls in a chain start at the same offset. -/
def callKey (a : Address) : Key :=
  let list := (a.node?.filter (·.kind = .callExpression)).bind (·.child? .arguments)
  ⟨a.file, (list.map Node.start).getD a.start⟩

/-- The address of a node below the given ancestors, of which the nearest comes first. -/
def ofNode (file : FileId) (n : Node) (ancestors : List Node) : Address :=
  ⟨file, n.start, n.stop, n :: ancestors, true⟩

def location (a : Address) (program : Program) : Location :=
  (program.file a.file).location a.start

end Address

namespace Node

/-- A range lies within a node's extent. A point at the end of a node belongs to what follows. -/
def encloses (n : Node) (start stop : Nat) : Bool :=
  n.start ≤ start && stop ≤ n.stop && (start < n.stop || n.start == n.stop)

mutual

/-- The nodes that enclose a range, from the innermost up to the given one: at each node the way
down is the first named child that encloses the range. -/
def enclosing (start stop : Nat) : Node → List Node
  | mk k r a b cs => enclosingIn start stop cs ++ [mk k r a b cs]
termination_by structural n => n

def enclosingIn (start stop : Nat) : List Node → List Node
  | [] => []
  | c :: cs =>
    if c.kind.isNamed && c.encloses start stop then enclosing start stop c
    else enclosingIn start stop cs
termination_by structural cs => cs

end

end Node

def resolveRange (program : Program) (file : FileId) (start stop : Nat) (needExact : Bool) :
    Except Failure Address :=
  let source := program.file file
  if start > stop || stop > source.text.utf8ByteSize then
    .error (.noSyntaxAt source.path start stop)
  else
    let path := source.tree.enclosing start stop
    let inner := path.head?.getD source.tree
    let exact := inner.start == start && inner.stop == stop
    if needExact && !exact then .error (.ambiguousSelection inner.kind)
    else .ok ⟨file, start, stop, path, exact⟩

def resolve (program : Program) (onDisk : Path → Option Path) (position : String)
    (needExact : Bool) : Except Failure Address := do
  let d ← Descriptor.parse position
  match program.findFile? onDisk d.path with
  | some file => resolveRange program file d.start d.stop needExact
  | none => throw (.fileNotLoaded d.path)

/-- The parameter list of the innermost declaration on a path, with its ancestors. -/
def parameterPath? : List Node → Option (List Node)
  | [] => none
  | n :: rest =>
    if n.isDeclaration then
      match n.child? .parameters with
      | some params => some (params :: n :: rest)
      | none => parameterPath? rest
    else parameterPath? rest

def Address.signature? (a : Address) : Option Address :=
  match parameterPath? a.path with
  | some (params :: ancestors) => some (.ofNode a.file params ancestors)
  | _ => none

/-- The parameter list of the declaration around an address, which there has to be. -/
def signatureOf (program : Program) (a : Address) : Except Failure Address :=
  match a.signature? with
  | some s => .ok s
  | none => .error (.outsideFunction (a.location program))

end ParamThreading
