import ParamThreading.Syntax.Node

/-!
# Ways through a syntax tree

* `Node.everything`  all nodes, each before its children;
* `Node.backward`  the named nodes, each before its children and later children before earlier ones;
* `Node.reach?`  the end of a chain of children, one step at a time.
-/

namespace ParamThreading

/-- Which child comes next on a way down. -/
inductive Way where
  /-- The first child in a role. -/
  | role (r : Role)
  /-- The first named child. -/
  | first
  /-- The last named child. -/
  | last
deriving DecidableEq, Repr

namespace Node

mutual

/-- All nodes of a tree, each before its children. -/
def everything : Node → List Node
  | mk k r a b cs => mk k r a b cs :: everythingIn cs
termination_by structural n => n

def everythingIn : List Node → List Node
  | [] => []
  | c :: cs => everything c ++ everythingIn cs
termination_by structural cs => cs

end

mutual

/-- The named nodes of a tree from the last to the first, except that a node comes before its
children. -/
def backward : Node → List Node
  | mk k r a b cs => mk k r a b cs :: backwardIn cs
termination_by structural n => n

def backwardIn : List Node → List Node
  | [] => []
  | c :: cs => backwardIn cs ++ (if c.kind.isNamed then backward c else [])
termination_by structural cs => cs

end

mutual

/-- The node where the way down ends; nothing if a child on the way is missing. -/
def reach? (step : Node → Option Way) : Node → Option Node
  | mk k r a b cs =>
    match step (mk k r a b cs) with
    | none => some (mk k r a b cs)
    | some (.role role) => reachRole step role cs
    | some .first => reachFirst step cs
    | some .last => reachLast step none cs
termination_by structural n => n

def reachRole (step : Node → Option Way) (role : Role) : List Node → Option Node
  | [] => none
  | c :: cs => if c.role == some role then reach? step c else reachRole step role cs
termination_by structural cs => cs

def reachFirst (step : Node → Option Way) : List Node → Option Node
  | [] => none
  | c :: cs => if c.kind.isNamed then reach? step c else reachFirst step cs
termination_by structural cs => cs

def reachLast (step : Node → Option Way) (found : Option Node) : List Node → Option Node
  | [] => found
  | c :: cs => reachLast step (if c.kind.isNamed then reach? step c else found) cs
termination_by structural cs => cs

end

end Node

end ParamThreading
