import ParamThreading.Document.Value
import ParamThreading.Settings.Basic

/-!
# Layers of settings

A layer holds values by key, each with its origin. A later layer covers an earlier one.

* `Layer.set`  a value at a key, which may lead into tables and lists;
* `Layer.coverEnvironment`  a layer covered by the variables of the environment;
* `Layer.settings`  the settings of a layer.
-/

namespace ParamThreading

/-- A value with what it was read from. -/
structure Sourced where
  value : Value
  origin : Option String
deriving Inhabited

abbrev Layer := List (String × Sourced)

namespace Layer

/-- A step of a key below its first name. -/
inductive Step where
  | field (name : String)
  | index (position : Nat)
deriving DecidableEq, Repr, Inhabited

def isName (c : Char) : Bool :=
  c.isAlphanum || c = '_' || c = '-'

/-- The steps of what follows the first name of a key; nothing if it is not well formed. -/
def steps? : Nat → List Char → Option (List Step)
  | 0, _ => none
  | _ + 1, [] => some []
  | n + 1, '.' :: cs =>
    let name := cs.takeWhile isName
    if name.isEmpty then none
    else (steps? n (cs.drop name.length)).map (.field (String.ofList name) :: ·)
  | n + 1, '[' :: cs =>
    match Cut.cut? ']' cs with
    | none => none
    | some (inner, rest) =>
      (Numeral.digits? 10 inner).bind fun i => (steps? n rest).map (.index i :: ·)
  | _ + 1, _ :: _ => none

/-- The first name of a key and the steps that follow; a key that is not well formed is one name. -/
def keyPath (key : String) : String × List Step :=
  let cs := key.toList
  let name := cs.takeWhile isName
  match (if name.isEmpty then none else steps? (cs.length + 1) (cs.drop name.length)) with
  | some steps => (String.ofList name, steps)
  | none => (key, [])

/-- A value with another one at the end of some steps. What is in the way gives way. -/
def place : List Step → Value → Value → Value
  | [], v, _ => v
  | .field name :: rest, v, old =>
    let fields := match old with
      | .table fields => fields
      | _ => []
    .table (Value.insert fields name (place rest v ((Value.lookup? fields name).getD .null)))
  | .index i :: rest, v, old =>
    let items := match old with
      | .list items => items
      | _ => []
    let items := items ++ List.replicate (i + 1 - items.length) .null
    .list (items.set i (place rest v (items[i]?.getD .null)))

def put (layer : Layer) (name : String) (s : Sourced) : Layer :=
  if layer.any (·.1 == name) then layer.map fun (k, t) => if k == name then (k, s) else (k, t)
  else layer ++ [(name, s)]

def set (layer : Layer) (key : String) (s : Sourced) : Layer :=
  match keyPath key with
  | (name, []) => layer.put name s
  | (name, steps) =>
    let old := ((layer.lookup name).map (·.value)).getD .null
    layer.put name ⟨place steps s.value old, none⟩

def cover (layer : Layer) (origin : String) (fields : List (String × Value)) : Layer :=
  fields.foldl (fun layer (key, v) => layer.set key ⟨v, some origin⟩) layer

def variablePrefix : String := "argthread_"

/-- The key that a variable sets: two underscores lead into a table. -/
def variableKey? (name : String) : Option String :=
  (Cut.afterStart? variablePrefix.toList (Numeral.lower name.toList)).map fun rest =>
    (String.ofList rest).replace "__" "."

/-- The value of a variable: a truth value, a number, or a text. -/
def variableValue (text : String) : Value :=
  let cs := text.toList
  let word := String.ofList (Numeral.lower cs)
  if word == "true" then .bool true
  else if word == "false" then .bool false
  else match Numeral.int? cs with
    | some n => .int n
    | none =>
      match Numeral.double? cs with
      | some x => .double x
      | none => .text text

def coverEnvironment (layer : Layer) (environment : List (String × String)) : Layer :=
  environment.foldl (fun layer (name, text) =>
    match variableKey? name with
    | some key => layer.set key ⟨variableValue text, some "the environment"⟩
    | none => layer) layer

/-- The value at a key, converted; the default if there is none. -/
def field (layer : Layer) (key : String) (convert : Value → Except String α) (expected : String)
    (default : α) : Except SettingsFailure α :=
  match layer.lookup key with
  | none => .ok default
  | some s =>
    match convert s.value with
    | .ok a => .ok a
    | .error found => .error (.wrongKind found expected key s.origin)

def texts (layer : Layer) (key : String) (default : List String) :
    Except SettingsFailure (List String) :=
  match layer.lookup key with
  | none => .ok default
  | some s =>
    match s.value.toList with
    | .error found => .error (.wrongKind found "an array" key s.origin)
    | .ok items =>
      items.zipIdx.mapM fun (v, i) =>
        match v.toText with
        | .ok text => .ok text
        | .error found =>
          .error (.wrongKind found "a string" (key ++ "[" ++ toString i ++ "]") s.origin)

def settings (layer : Layer) : Except SettingsFailure Settings := do
  let base : Settings := {}
  let ignorePatterns ← layer.texts "ignore_patterns" base.ignorePatterns
  let skipExists ← layer.field "skip_exists" Value.toBool "a boolean" base.skipExists
  let packageRegexp ← layer.field "package_regexp" Value.toText "a string" base.packageRegexp
  let includeTests ← layer.field "include_tests" Value.toBool "a boolean" base.includeTests
  let loadDependencies ←
    layer.field "load_dependencies" Value.toBool "a boolean" base.loadDependencies
  return { ignorePatterns, skipExists, packageRegexp, includeTests, loadDependencies }

end Layer

end ParamThreading
