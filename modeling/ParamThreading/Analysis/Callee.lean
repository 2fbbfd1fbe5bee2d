import ParamThreading.Analysis.Binding

/-!
# Which functions a call can reach

A method call on a value of unknown type reaches every method of that name; a call into a package
outside the program reaches none.

* `Names.methodExpression?`  whether a selector is a method expression;
* `Names.callees`  the functions that a call expression can reach;
* `Names.valueReference?`, `Names.qualifiedReference?`  functions that are named without a call.
-/

namespace ParamThreading

namespace Names

/-- The last declared function of a name in a package. Functions named `init` cannot be named. -/
def function? (names : Names) (package : PackageId) (name : String) : Option FunctionId :=
  (functionsWith names.functions fun
    | .declared p _ n => p == package && n == name && n != "init"
    | _ => false).getLast?

/-- The last declared method of a name and receiver type in a package. -/
def method? (names : Names) (package : PackageId) (receiver name : String) : Option FunctionId :=
  (functionsWith names.functions fun
    | .method p _ r n => p == package && r == receiver && n == name
    | _ => false).getLast?

def methodsNamed (names : Names) (name : String) : List FunctionId :=
  functionsWith names.functions fun
    | .method _ _ _ n => n == name
    | _ => false

/-- A function of a package, or a package variable that holds a literal. -/
def packageFunction? (names : Names) (package : PackageId) (name : String) : Option FunctionId :=
  (names.function? package name).or
    (match names.packageBindings.lookup (package, name) with
    | some (.literal l) => some l
    | _ => none)

/-- The type of a method expression such as `T.M`: the selector names a type of the program, and the
name of the type does not stand for a value. -/
def methodExpression? (names : Names) (file : FileId) (bs : Bindings) (selector : Node) :
    Option (PackageId × String) :=
  (names.program.methodExpressionType? file selector).filter fun (_, type) =>
    (names.lookup file bs type).isNone

/-- The callees of a selector that is called. -/
def selectorCallees (names : Names) (file : FileId) (bs : Bindings) (selector : Node) :
    List FunctionId :=
  let text := (names.program.file file).text
  match selector.child? .operand, selector.child? .field with
  | some operand, some field =>
    let method := field.text text
    let fallback := names.methodsNamed method
    match names.methodExpression? file bs selector with
    | some (package, type) => ((names.method? package type method).map ([·])).getD fallback
    | none =>
      if operand.kind = .identifier then
        let receiver := operand.text text
        match names.lookup file bs receiver with
        | none =>
          match names.program.imported file receiver with
          | .loaded package => (names.packageFunction? package method).toList
          | .foreign => []
          | .notImported => fallback
        | some (.type t) =>
          match names.program.typeTarget file t with
          | .loaded package type => ((names.method? package type method).map ([·])).getD fallback
          | .foreign => []
          | .unknown => fallback
        | some .foreign => []
        | some _ => fallback
      else if names.isForeign file bs operand then []
      else fallback
  | _, _ => []

/-- Through parentheses to what is called. -/
def calledStep (n : Node) : Option Way :=
  if n.kind = .parenthesizedExpression then some .first else none

def callees (names : Names) (file : FileId) (bs : Bindings) (call : Node) : List FunctionId :=
  let source := names.program.file file
  match (call.child? .function).bind (·.reach? calledStep) with
  | none => []
  | some called =>
    match called.kind with
    | .identifier =>
      match bs.get? (called.text source.text) with
      | some (.literal l) => [l]
      | some _ => []
      | none => (names.packageFunction? source.package (called.text source.text)).toList
    | .selectorExpression => names.selectorCallees file bs called
    | .funcLiteral => (functionAt? names.functions file called.start).toList
    | _ => []

def valueReference? (names : Names) (file : FileId) (bs : Bindings) (ident : Node) :
    Option FunctionId :=
  let source := names.program.file file
  let name := ident.text source.text
  if (bs.get? name).isSome then none else names.function? source.package name

def qualifiedReference? (names : Names) (file : FileId) (bs : Bindings) (selector : Node) :
    Option FunctionId := do
  let text := (names.program.file file).text
  let operand ← selector.child? .operand
  let field ← selector.child? .field
  if operand.kind ≠ .identifier then none
  let qualifier := operand.text text
  if (names.lookup file bs qualifier).isSome then none
  match names.program.imported file qualifier with
  | .loaded package => names.function? package (field.text text)
  | _ => none

end Names

end ParamThreading
