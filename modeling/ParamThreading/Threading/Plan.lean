import ParamThreading.Edit.Element
import ParamThreading.Request
import ParamThreading.Threading.Propagation

/-!
# A request carried out on a program

* `plan`  the frontier of a request;
* `apply`  the edits of a frontier; targets of a wrong kind are passed over, with a warning.
-/

namespace ParamThreading

/-- The parameter lists and calls that a request touches. -/
def plan (program : Program) (onDisk : Path → Option Path) (request : Request) :
    Except Failure Frontier := do
  let selected ← resolve program onDisk request.position false
  let start ← signatureOf program selected
  let graph ← CallGraph.ofProgram program
  let walk := propagate program (graph.incoming program) start
  match walk.failure with
  | some f => throw f
  | none => return walk.frontier

/-- Edits with the targets that were passed over. -/
structure Applied where
  edits : Edits
  skipped : List Failure
deriving Inhabited

namespace Applied

def take (acc : Applied) (result : Except Failure (Outcome × Edits)) : Applied :=
  match result with
  | .ok (_, edits) => { acc with edits }
  | .error f => { acc with skipped := acc.skipped ++ [f] }

def warnings (a : Applied) : List String :=
  a.skipped.map fun f => f.message ++ "; skipping"

end Applied

/-- Adds the parameter to all parameter lists of a frontier and the argument to all its calls. -/
def apply (program : Program) (frontier : Frontier) (request : Request) : Applied :=
  let withParameters := frontier.signatures.foldl (fun acc a => acc.take
    (acc.edits.addParameter program a request.name request.type request.skipIfPresent)) ⟨.empty, []⟩
  frontier.callSites.foldl (fun acc a => acc.take
    (acc.edits.addArgument program a request.name request.skipIfPresent)) withParameters

end ParamThreading
