import ParamThreading.Analysis.TypeName

/-!
# The functions of a program

They are its declarations and function literals, and the functions that stand for the start of the
program, of its tests and of each package. A function is named by its index.

* `FunctionKind`, `FunctionNode`  what a function is, and the node that declares it;
* `Item`  a declaration at the top level that can hold calls;
* `Program.functions`  all functions: the start, the tests, the packages, the declarations file by
  file, and the literals item by item;
* `PlaceIndex`, `functionAt?`  functions by the places where they start.
-/

namespace ParamThreading

abbrev FunctionId := Nat

/-- What a function is. -/
inductive FunctionKind where
  /-- Stands for the start of the program. -/
  | root
  /-- Stands for the run of the tests. -/
  | testMain
  /-- Stands for the initialisation of a package. -/
  | packageInit (package : PackageId)
  | declared (package : PackageId) (file : FileId) (name : String)
  | method (package : PackageId) (file : FileId) (receiver name : String)
  | literal (package : PackageId) (file : FileId) (withinDeclaration : Bool)
deriving DecidableEq, Repr, Inhabited

namespace FunctionKind

/-- The file that holds a function; nothing for those without text. -/
def file? : FunctionKind → Option FileId
  | .declared _ f _ | .method _ f _ _ | .literal _ f _ => some f
  | _ => none

end FunctionKind

structure FunctionNode where
  kind : FunctionKind
  /-- The declaration or literal. -/
  node : Option Node
deriving Inhabited

/-- A declaration at the top level that can hold calls. -/
structure Item where
  file : FileId
  node : Node
  /-- It declares a function or method. -/
  isFunction : Bool
deriving Inhabited

namespace Program

def declaredFunction? (p : Program) (file : FileId) (n : Node) : Option FunctionNode := do
  let source := p.file file
  match n.kind with
  | .functionDeclaration =>
    let name ← n.textIn? .name source.text
    return ⟨.declared source.package file name, some n⟩
  | .methodDeclaration =>
    let name ← n.textIn? .name source.text
    return ⟨.method source.package file (receiverType source.text n) name, some n⟩
  | _ => none

def declaredIn (p : Program) (file : FileId) : List FunctionNode :=
  (p.file file).tree.codeChildren.filterMap (p.declaredFunction? file)

/-- Functions, methods, and variables and constants of packages. -/
def item? (p : Program) (file : FileId) (n : Node) : Option Item :=
  match n.kind with
  | .functionDeclaration | .methodDeclaration =>
    (p.declaredFunction? file n).map fun _ => ⟨file, n, true⟩
  | .varDeclaration | .constDeclaration => some ⟨file, n, false⟩
  | _ => none

def items (p : Program) : List Item :=
  (List.range p.files.length).flatMap fun file =>
    (p.file file).tree.codeChildren.filterMap (p.item? file)

/-- The literals of an item, later ones first. -/
def literalsIn (p : Program) (item : Item) : List FunctionNode :=
  (item.node.backward.filter (·.kind = .funcLiteral)).map fun n =>
    ⟨.literal (p.file item.file).package item.file item.isFunction, some n⟩

def functions (p : Program) : List FunctionNode :=
  [⟨.root, none⟩, ⟨.testMain, none⟩]
    ++ (List.range p.packages.length).map (fun id => ⟨.packageInit id, none⟩)
    ++ (List.range p.files.length).flatMap p.declaredIn
    ++ p.items.flatMap p.literalsIn

end Program

/-- The start of the program comes first. -/
def rootFunction : FunctionId := 0

/-- The run of the tests comes second. -/
def testFunction : FunctionId := 1

/-- The initialisation of a package comes at its place after these two. -/
def initFunction (package : PackageId) : FunctionId := 2 + package

namespace FunctionNode

def place? (f : FunctionNode) : Option (FileId × Nat) := do
  let file ← f.kind.file?
  let node ← f.node
  return (file, node.start)

end FunctionNode

/-- Functions by the places where they start, the latest first. -/
abbrev PlaceIndex := List ((FileId × Nat) × FunctionId)

namespace PlaceIndex

def record (index : PlaceIndex) (entry : FunctionNode × FunctionId) : PlaceIndex :=
  match entry.1.place? with
  | some place => (place, entry.2) :: index
  | none => index

def ofFunctions (functions : List FunctionNode) : PlaceIndex :=
  functions.zipIdx.foldl record []

end PlaceIndex

def functionAt? (functions : List FunctionNode) (file : FileId) (offset : Nat) :
    Option FunctionId :=
  (PlaceIndex.ofFunctions functions).lookup (file, offset)

/-- The indices of the functions that satisfy a test, in order. -/
def functionsWith (functions : List FunctionNode) (test : FunctionKind → Bool) : List FunctionId :=
  (List.range functions.length).filter fun i => (functions[i]?).any fun f => test f.kind

end ParamThreading
