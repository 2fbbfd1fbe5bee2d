import ParamThreading.Syntax.Kind

/-!
# Syntax trees

A node covers the bytes from `start` up to `stop` of its source; its children are the tokens and
nodes it consists of, in the order of the text. White space and comments are not part of the tree.

* `Node.codeChildren`  the named children;
* `Node.child?`  the first child in a role;
* `Node.childrenIn`  the named children in a role;
* `Node.text`  the source text that a node covers.
-/

namespace ParamThreading

/-- A node of a syntax tree, with the role it plays in its parent. -/
inductive Node where
  | mk (kind : Kind) (role : Option Role) (start stop : Nat) (children : List Node)
deriving Repr, Inhabited

namespace Node

def kind : Node → Kind
  | mk k _ _ _ _ => k

def role : Node → Option Role
  | mk _ r _ _ _ => r

def start : Node → Nat
  | mk _ _ a _ _ => a

def stop : Node → Nat
  | mk _ _ _ b _ => b

def children : Node → List Node
  | mk _ _ _ _ cs => cs

def withRole (r : Role) : Node → Node
  | mk k _ a b cs => mk k (some r) a b cs

/-- A node around children: it covers the text from the first child to the last. -/
def spanning (k : Kind) (cs : List Node) : Node :=
  mk k none ((cs.head?.map start).getD 0) ((cs.getLast?.map stop).getD 0) cs

def codeChildren (n : Node) : List Node :=
  n.children.filter (·.kind.isNamed)

def child? (n : Node) (r : Role) : Option Node :=
  n.children.find? (·.role == some r)

def childrenIn (n : Node) (r : Role) : List Node :=
  n.codeChildren.filter (·.role == some r)

def isDeclaration (n : Node) : Bool :=
  n.kind = .functionDeclaration || n.kind = .methodDeclaration

/-- A declaration of a function or method, or a function literal. -/
def isFunction (n : Node) : Bool :=
  n.isDeclaration || n.kind = .funcLiteral

/-- The part of a text between two byte offsets. -/
def slice (source : String) (start stop : Nat) : String :=
  String.Pos.Raw.extract source ⟨start⟩ ⟨stop⟩

def text (n : Node) (source : String) : String :=
  slice source n.start n.stop

def textIn? (n : Node) (r : Role) (source : String) : Option String :=
  (n.child? r).map (·.text source)

@[simp] theorem kind_withRole (r : Role) (n : Node) : (n.withRole r).kind = n.kind := by
  cases n; rfl

@[simp] theorem role_withRole (r : Role) (n : Node) : (n.withRole r).role = some r := by
  cases n; rfl

@[simp] theorem start_withRole (r : Role) (n : Node) : (n.withRole r).start = n.start := by
  cases n; rfl

@[simp] theorem stop_withRole (r : Role) (n : Node) : (n.withRole r).stop = n.stop := by
  cases n; rfl

@[simp] theorem children_withRole (r : Role) (n : Node) :
    (n.withRole r).children = n.children := by
  cases n; rfl

@[simp] theorem kind_spanning (k : Kind) (cs : List Node) : (spanning k cs).kind = k := rfl

@[simp] theorem children_spanning (k : Kind) (cs : List Node) : (spanning k cs).children = cs := rfl

end Node

end ParamThreading
