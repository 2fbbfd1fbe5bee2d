import ParamThreading.Analysis.Callers
import ParamThreading.Threading.Frontier

/-!
# From a function to everything that has to change with it

The walk goes from a function to its callers; a caller is expanded once, so recursion does no harm.

* `enclosingSignature`  the parameter list that a call makes the walk go on with;
* `Walk.next`, `Walk.run`  the walk, for any answer to the question who calls a function;
* `propagate`  the frontier of a parameter list.
-/

namespace ParamThreading

/-- Answers which calls there are of the function at an address. -/
abbrev CallerQuery := Address → Except Failure (List CallEdge)

/-- The parameter list of the declaration around a call; none for calls outside declarations. -/
def enclosingSignature (program : Program) (e : CallEdge) : Except Failure (Option Address) :=
  match e.callerKind with
  | .function =>
    match e.site.signature? with
    | some s => .ok (some s)
    | none => .error (.noEnclosingFunction (e.site.location program))
  | _ => .ok none

/-- The state of a walk: what was found, the places whose callers were asked for, in order, and
the functions that are still to be expanded, the next one first. -/
structure Walk where
  frontier : Frontier
  visited : List Key
  pending : List Address
  failure : Option Failure
deriving Inhabited

namespace Walk

def takeEdge (program : Program) (w : Walk) (e : CallEdge) : Walk :=
  if w.failure.isSome then w
  else match enclosingSignature program e with
    | .error f => { w with failure := some f }
    | .ok none => { w with frontier := w.frontier.addCallSite e.site }
    | .ok (some s) =>
      { w with
        frontier := (w.frontier.addCallSite e.site).addSignature s
        pending := s :: w.pending }

/-- Asks for the callers of a function and takes them in. -/
def expand (program : Program) (query : CallerQuery) (w : Walk) (a : Address) : Walk :=
  let w := { w with visited := w.visited ++ [a.key] }
  match query a with
  | .error f => { w with failure := some f }
  | .ok edges => edges.foldl (takeEdge program) w

/-- One turn of the loop: takes the next pending function and expands it unless it was visited.
Nothing if the walk is over. -/
def next (program : Program) (query : CallerQuery) (w : Walk) : Option Walk :=
  match w.failure, w.pending with
  | none, a :: rest =>
    let w := { w with pending := rest }
    some (if w.visited.contains a.key then w else expand program query w a)
  | _, _ => none

def run (program : Program) (query : CallerQuery) (w : Walk) : Walk :=
  match next program query w with
  | none => w
  | some w => w |>.run program query
partial_fixpoint

end Walk

/-- Adds the callers of a function and their calls to a frontier. -/
def propagateInto (program : Program) (query : CallerQuery) (start : Address)
    (frontier : Frontier) : Walk :=
  Walk.run program query ⟨frontier, [], [start], none⟩

def propagate (program : Program) (query : CallerQuery) (start : Address) : Walk :=
  propagateInto program query start (.seeded start)

end ParamThreading
