import ParamThreading.Analysis.Callee
import ParamThreading.Analysis.Scope

/-!
# The call graph of a program

An edge has a call site if it stands for a call in the text; the other edges (the start of the
program, the initialisation of packages, literals inside functions, and functions used as values)
only matter for what can be reached.

* `Edge`, `CallGraph`  the data;
* `Names.edgesOf`  the edges that come from an item;
* `CallGraph.build`  the graph of a program;
* `CallGraph.reachable`, `CallGraph.callersOf`  what is reached from the start, and by which calls.
-/

namespace ParamThreading

structure CallSite where
  file : FileId
  node : Node
deriving Inhabited

structure Edge where
  caller : FunctionId
  callee : FunctionId
  site : Option CallSite
deriving Inhabited

/-- Which children of a node can hold calls or references. -/
inductive Portion where
  | all
  /-- The children of a call: the name that is called is not a reference. -/
  | call
  /-- Of a selector that is called, only its operand. -/
  | operand
  /-- The children of a declaration but for its name. -/
  | declaration
deriving DecidableEq, Repr

namespace Names

mutual

/-- The edges from a node inside the function `current`. -/
def edgesFrom (names : Names) (file : FileId) (bs : Bindings) (current : FunctionId)
    (called : Bool) : Node → List Edge
  | .mk k r a b cs =>
    match k with
    | .funcLiteral =>
      match functionAt? names.functions file a with
      | some literal => ⟨current, literal, none⟩ :: edgesIn names file bs literal .all cs
      | none => edgesIn names file bs current .all cs
    | .callExpression =>
      (names.callees file bs (.mk k r a b cs)).map
        (fun callee => ⟨current, callee, some ⟨file, .mk k r a b cs⟩⟩)
        ++ edgesIn names file bs current .call cs
    | .identifier =>
      if called then []
      else (names.valueReference? file bs (.mk k r a b cs)).toList.map fun f => ⟨current, f, none⟩
    | .selectorExpression =>
      if called then edgesIn names file bs current .operand cs
      else
        (names.qualifiedReference? file bs (.mk k r a b cs)).toList.map
          (fun f => ⟨current, f, none⟩)
          ++ edgesIn names file bs current .all cs
    | .functionDeclaration | .methodDeclaration => edgesIn names file bs current .declaration cs
    | _ => edgesIn names file bs current .all cs
termination_by structural n => n

def edgesIn (names : Names) (file : FileId) (bs : Bindings) (current : FunctionId)
    (portion : Portion) : List Node → List Edge
  | [] => []
  | c :: cs =>
    let skipped := !c.kind.isNamed ||
      (portion == .operand && c.role != some .operand) ||
      (portion == .declaration && c.role == some .name)
    let called := portion == .call && c.role == some .function
    (if skipped then [] else edgesFrom names file bs current called c)
      ++ edgesIn names file bs current portion cs
termination_by structural cs => cs

end

/-- The function that an item's calls belong to, if they are in no literal: the declared one, or the
initialisation of the package. -/
def ownerOf (names : Names) (item : Item) : FunctionId :=
  if item.isFunction then (functionAt? names.functions item.file item.node.start).getD rootFunction
  else initFunction (names.program.file item.file).package

def edgesOf (names : Names) (item : Item) (bs : Bindings) : List Edge :=
  names.edgesFrom item.file bs (names.ownerOf item) false item.node

end Names

namespace Scope

/-- The edges that lead to a declared function by its name: from the initialisation of its package,
from the start of the program and from the run of the tests. -/
def wiring (scope : Scope) (program : Program) (id : FunctionId) (f : FunctionNode) : List Edge :=
  match f.kind with
  | .declared package file name =>
    (if name = "init" then [⟨initFunction package, id, none⟩] else [])
      ++ (if name = "main" && scope.mains.contains package then [⟨rootFunction, id, none⟩] else [])
      ++ (if (program.file file).isTest && isTestEntry name && scope.testPackages.contains package
          then [⟨testFunction, id, none⟩] else [])
  | _ => []

end Scope

structure CallGraph where
  functions : List FunctionNode
  edges : List Edge
  /-- What is reached from the start. -/
  reached : List FunctionId
deriving Inhabited

/-- Everything that edges lead to from a list of functions. The number bounds the steps. -/
def reachFrom (edges : List Edge) : Nat → List FunctionId → List FunctionId → List FunctionId
  | 0, _, seen => seen
  | _ + 1, [], seen => seen
  | n + 1, f :: todo, seen =>
    if seen.contains f then reachFrom edges n todo seen
    else
      let next := (edges.filter (·.caller == f)).map (·.callee)
      reachFrom edges n (next ++ todo) (f :: seen)

namespace CallGraph

def build (program : Program) (scope : Scope) : CallGraph :=
  let (names, items) := Names.ofProgram program
  let edges := ⟨rootFunction, testFunction, none⟩
    :: (List.range program.packages.length).map (fun id => ⟨rootFunction, initFunction id, none⟩)
    ++ names.functions.zipIdx.flatMap (fun (f, id) => scope.wiring program id f)
    ++ items.flatMap (fun (item, bs) => names.edgesOf item bs)
  ⟨names.functions, edges, reachFrom edges (edges.length + 2) [rootFunction] []⟩

def kind (g : CallGraph) (f : FunctionId) : FunctionKind :=
  ((g.functions[f]?).map FunctionNode.kind).getD .root

/-- A function that stands for the start of the program or the run of the tests. -/
def isSynthetic (f : FunctionId) : Bool :=
  f == rootFunction || f == testFunction

def isReachable (g : CallGraph) (f : FunctionId) : Bool :=
  g.reached.contains f

/-- The calls of a function from functions that are reached from the start. -/
def callersOf (g : CallGraph) (f : FunctionId) : List (FunctionId × CallSite) :=
  g.edges.filterMap fun e =>
    if e.callee == f && g.isReachable e.caller && !isSynthetic e.caller then
      e.site.map fun site => (e.caller, site)
    else none

def functionFor? (g : CallGraph) (file : FileId) (n : Node) : Option FunctionId :=
  if n.isFunction then functionAt? g.functions file n.start else none

def describe (g : CallGraph) (program : Program) (f : FunctionId) : String :=
  match g.kind f with
  | .root => "<root>"
  | .testMain => "<testmain>"
  | .packageInit package => (program.package package).name ++ ".init"
  | .declared package _ name => (program.package package).name ++ "." ++ name
  | .method _ _ receiver name => receiver ++ "." ++ name
  | .literal _ file _ =>
    let offset := (((g.functions[f]?).bind FunctionNode.node).map Node.start).getD 0
    "func literal at " ++ ((program.file file).location offset).render

end CallGraph

end ParamThreading
