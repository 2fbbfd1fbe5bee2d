import ParamThreading.Program.Basic
import ParamThreading.Text.Cut

/-!
# What the names of a file's imports stand for

* `defaultImportName`  the usual name of an import without a local one;
* `Program.imported`  what a name refers to as an import.
-/

namespace ParamThreading

/-- A major version: `v` and digits. -/
def isMajorVersion (cs : List Char) : Bool :=
  match cs with
  | 'v' :: digits => !digits.isEmpty && digits.all Char.isDigit
  | _ => false

/-- The last element of an import path, or the one before it if that is a major version; without a
version after a dot and without `go-` in front. -/
def defaultImportName (path : String) : String :=
  let parts := (Cut.fields '/' path.toList).reverse
  let last := match parts with
    | v :: previous :: _ => if isMajorVersion v then previous else v
    | [only] => only
    | [] => []
  let plain := match Cut.cutLast? '.' last with
    | some (head, v) => if isMajorVersion v then head else last
    | none => last
  String.ofList ((Cut.afterStart? "go-".toList plain).getD plain)

/-- What a name refers to as an import. -/
inductive ImportTarget where
  | notImported
  /-- A package outside the program. -/
  | foreign
  | loaded (package : PackageId)
deriving DecidableEq, Repr, Inhabited

namespace Program

def importAnswers (p : Program) (name : String) (spec : Import) : Bool :=
  match spec.name with
  | some given => given != "_" && given != "." && given == name
  | none =>
    match p.packageByImportPath? spec.path with
    | some id => (p.package id).name == name
    | none => defaultImportName spec.path == name

def imported (p : Program) (file : FileId) (name : String) : ImportTarget :=
  match (p.file file).imports.find? (p.importAnswers name) with
  | none => .notImported
  | some spec =>
    match p.packageByImportPath? spec.path with
    | some id => .loaded id
    | none => .foreign

end Program

end ParamThreading
