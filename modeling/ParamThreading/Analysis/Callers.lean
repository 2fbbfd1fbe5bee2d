import ParamThreading.Analysis.CallGraph
import ParamThreading.Position.Address

/-!
# Who calls the function at an address

* `CallerKind`, `CallEdge`  a call as propagation sees it;
* `CallGraph.incoming`  the calls of the function at an address, in the order of the text;
* `CallGraph.ofProgram`  the graph of a program that has a place to start from.
-/

namespace ParamThreading

/-- Where the code of a caller stands. -/
inductive CallerKind where
  /-- Inside a declaration of a function or method. -/
  | function
  /-- In the initial value of a package variable. -/
  | packageInit
  /-- In a literal outside all declarations. -/
  | detachedLiteral
deriving DecidableEq, Repr, Inhabited

namespace CallerKind

def ofFunction : FunctionKind → CallerKind
  | .packageInit _ => .packageInit
  | .literal _ _ false => .detachedLiteral
  | _ => .function

end CallerKind

structure CallEdge where
  caller : FunctionId
  callerKind : CallerKind
  callee : FunctionId
  site : Address
deriving Inhabited

namespace CallGraph

def ofProgram (program : Program) : Except Failure CallGraph :=
  let scope := Scope.ofProgram program
  if scope.hasRoots then .ok (build program scope) else .error .noAnalysisRoot

def functionAround (g : CallGraph) (program : Program) (a : Address) : Except Failure FunctionId :=
  match a.path.find? (·.isFunction) with
  | none => .error (.outsideFunction (a.location program))
  | some n =>
    match g.functionFor? a.file n with
    | none => .error (.unknownFunction (a.location program))
    | some f => .ok f

def callEdge (g : CallGraph) (program : Program) (callee : FunctionId)
    (call : FunctionId × CallSite) : Except Failure CallEdge := do
  let (caller, site) := call
  let address ← resolveRange program site.file site.node.start site.node.stop true
  return ⟨caller, .ofFunction (g.kind caller), callee, address⟩

/-- The calls of the function around an address, ordered by the opening parenthesis. -/
def incoming (g : CallGraph) (program : Program) (a : Address) :
    Except Failure (List CallEdge) := do
  let callee ← g.functionAround program a
  let edges ← (g.callersOf callee).mapM (g.callEdge program callee)
  return edges.mergeSort fun x y => x.site.callKey.le y.site.callKey

end CallGraph

end ParamThreading
