import ParamThreading.Analysis.Function

/-!
# What the names in a declaration are known to hold

A name has one meaning throughout a declaration, and knowledge about it is only replaced by
knowledge of at least the same rank.

* `Binding`, `Bindings.bind`  what is known of a name, and how it is recorded;
* `Names`, `Names.lookup`  the names of the packages, and how a name is looked up;
* `Names.isForeign`, `Names.valueOf`  what an expression tells about its value;
* `Names.bindingsOf`  the bindings of an item;
* `Names.ofProgram`  the names of a whole program, with its items.
-/

namespace ParamThreading

/-- What a name is known to hold. -/
inductive Binding where
  | literal (function : FunctionId)
  /-- A value of a named type. -/
  | type (name : String)
  /-- A value from a package outside the program. -/
  | foreign
  | unknown
deriving DecidableEq, Repr, Inhabited

namespace Binding

def rank : Binding → Nat
  | literal _ => 2
  | type _ => 1
  | foreign => 1
  | unknown => 0

/-- Whether what is known of a name stays when a value is told: a literal gives way to a literal
alone, and a type or a foreign value to everything but an unknown value. -/
def stays : Option Binding → Binding → Bool
  | some (literal _), literal _ => false
  | some (literal _), _ => true
  | some (type _), unknown | some foreign, unknown => true
  | _, _ => false

theorem stays_eq (known : Option Binding) (value : Binding) :
    stays known value = known.any (value.rank < ·.rank) := by
  rcases known with _ | known
  · cases value <;> rfl
  · cases known <;> cases value <;> rfl

end Binding

/-- Bindings of names, the latest first. -/
abbrev Bindings := List (String × Binding)

namespace Bindings

def get? (bs : Bindings) (name : String) : Option Binding :=
  bs.lookup name

/-- Records what is told of a name, unless what is known of it stays. The blank name is never
recorded. -/
def bind (bs : Bindings) (name : String) (value : Binding) : Bindings :=
  if name = "_" || Binding.stays (bs.get? name) value then bs else (name, value) :: bs

def bindAll (bs : Bindings) (pairs : List (String × Binding)) : Bindings :=
  pairs.foldl (fun bs (name, value) => bs.bind name value) bs

end Bindings

/-- The functions of a program and the bindings of its packages, the latest first. -/
structure Names where
  program : Program
  functions : List FunctionNode
  packageBindings : List ((PackageId × String) × Binding)

namespace Names

/-- A name in an item: first as one of its own, then as one of the package's. -/
def lookup (names : Names) (file : FileId) (bs : Bindings) (name : String) : Option Binding :=
  (bs.get? name).or (names.packageBindings.lookup ((names.program.file file).package, name))

/-- From a selector to its operand, from a call to what is called, and through parentheses and
unary operators. -/
def originStep (n : Node) : Option Way :=
  match n.kind with
  | .selectorExpression => some (.role .operand)
  | .callExpression => some (.role .function)
  | .parenthesizedExpression | .unaryExpression => some .last
  | _ => none

/-- An expression whose value comes from a package outside the program. -/
def isForeign (names : Names) (file : FileId) (bs : Bindings) (expr : Node) : Bool :=
  let text := (names.program.file file).text
  (expr.reach? originStep).any fun n =>
    match n.kind with
    | .identifier =>
      match names.lookup file bs (n.text text) with
      | some .foreign => true
      | some (.type t) => names.program.typeTarget file t == .foreign
      | some _ => false
      | none => names.program.imported file (n.text text) == .foreign
    | .compositeLiteral =>
      ((n.child? .type).bind (namedType? text)).any fun t =>
        names.program.typeTarget file t == .foreign
    | _ => false

/-- Through parentheses, and from an address to what is addressed. -/
def valueStep (text : String) (n : Node) : Option Way :=
  match n.kind with
  | .parenthesizedExpression => some .first
  | .unaryExpression => if n.textIn? .operator text = some "&" then some (.role .operand) else none
  | _ => none

def newType? (text : String) (call : Node) : Option String := do
  let list ← call.child? .arguments
  let type ← list.codeChildren.head?
  if type.kind = .identifier then return type.text text
  namedType? text type

/-- What an initial value tells about the name that it is given to. -/
def valueOf (names : Names) (file : FileId) (bs : Bindings) (expr : Node) : Binding :=
  let text := (names.program.file file).text
  let ofForeign (n : Node) : Binding := if names.isForeign file bs n then .foreign else .unknown
  let ofType (t : Option String) : Binding := (t.map Binding.type).getD .unknown
  match expr.reach? (valueStep text) with
  | none => .unknown
  | some n =>
    match n.kind with
    | .funcLiteral => ((functionAt? names.functions file n.start).map Binding.literal).getD .unknown
    | .compositeLiteral => ofType ((n.child? .type).bind (namedType? text))
    | .callExpression =>
      if n.textIn? .function text = some "new" then ofType (newType? text n) else ofForeign n
    | .selectorExpression => ofForeign n
    | _ => .unknown

/-- What a name on the left is given by the values on the right: its own one if there are as many
as names, or the results of a single call. -/
def valueAt (names : Names) (file : FileId) (bs : Bindings) (count i : Nat) (values : List Node) :
    Binding :=
  if count = values.length then ((values[i]?).map (names.valueOf file bs)).getD .unknown
  else match values with
    | [call] => if names.isForeign file bs call then .foreign else .unknown
    | _ => .unknown

def bindParameters (names : Names) (file : FileId) (bs : Bindings) (n : Node) : Bindings :=
  let text := (names.program.file file).text
  let value := (((n.child? .type).bind (namedType? text)).map Binding.type).getD .unknown
  bs.bindAll ((n.childrenIn .name).map fun name => (name.text text, value))

/-- Names on the left of an assignment or short declaration. An assignment only counts if it gives
a literal. -/
def bindAssigned (names : Names) (file : FileId) (bs : Bindings) (n : Node) : Bindings :=
  let text := (names.program.file file).text
  let left := ((n.child? .left).map Node.codeChildren).getD []
  let right := ((n.child? .right).map Node.codeChildren).getD []
  left.zipIdx.foldl (fun bs (target, i) =>
    if target.kind = .identifier then
      let value := names.valueAt file bs left.length i right
      if n.kind = .assignmentStatement && value.rank < 2 then bs
      else bs.bind (target.text text) value
    else bs) bs

/-- Declared variables and constants: a literal counts first, then the declared type, then what
else the value tells. -/
def bindDeclared (names : Names) (file : FileId) (bs : Bindings) (n : Node) : Bindings :=
  let text := (names.program.file file).text
  let declared := (n.child? .type).bind (namedType? text)
  let values := ((n.child? .value).map Node.codeChildren).getD []
  let declaredNames := n.childrenIn .name
  declaredNames.zipIdx.foldl (fun bs (name, i) =>
    let value := match names.valueAt file bs declaredNames.length i values, declared with
      | .literal l, _ => .literal l
      | _, some t => .type t
      | other, none => other
    bs.bind (name.text text) value) bs

/-- The names on the left of a range clause, of which nothing is known. -/
def bindRange (names : Names) (file : FileId) (bs : Bindings) (n : Node) : Bindings :=
  let text := (names.program.file file).text
  let left := ((n.child? .left).map Node.codeChildren).getD []
  bs.bindAll (left.map fun target => (target.text text, .unknown))

def bindNode (names : Names) (file : FileId) (bs : Bindings) (n : Node) : Bindings :=
  match n.kind with
  | .parameterDeclaration | .variadicParameterDeclaration => names.bindParameters file bs n
  | .shortVarDeclaration | .assignmentStatement => names.bindAssigned file bs n
  | .varSpec | .constSpec => names.bindDeclared file bs n
  | .rangeClause => names.bindRange file bs n
  | _ => bs

def bindingsOf (names : Names) (item : Item) : Bindings :=
  item.node.backward.foldl (names.bindNode item.file) []

/-- The names that an item of package variables or constants declares, later ones first. -/
def declaredNames (text : String) (declaration : Node) : List String :=
  let specs := declaration.codeChildren.flatMap fun n =>
    if n.kind = .varSpecList then n.codeChildren else [n]
  let specs := specs.filter fun n => n.kind = .varSpec || n.kind = .constSpec
  specs.reverse.flatMap fun spec => (spec.childrenIn .name).map (·.text text)

/-- Adds the bindings of an item's package variables and constants to those of the package. -/
def exporting (names : Names) (item : Item) (bs : Bindings) : Names :=
  if item.isFunction then names
  else
    let source := names.program.file item.file
    let exported := (declaredNames source.text item.node).filterMap fun name =>
      (bs.get? name).map fun value => ((source.package, name), value)
    { names with packageBindings := exported.reverse ++ names.packageBindings }

def scan (acc : Names × List (Item × Bindings)) (item : Item) : Names × List (Item × Bindings) :=
  let bs := acc.1.bindingsOf item
  (acc.1.exporting item bs, acc.2 ++ [(item, bs)])

def ofProgram (program : Program) : Names × List (Item × Bindings) :=
  program.items.foldl scan (⟨program, program.functions, []⟩, [])

end Names

end ParamThreading
