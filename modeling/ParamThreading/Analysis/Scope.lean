import ParamThreading.Program.Basic
import ParamThreading.Text.Cut
import ParamThreading.Text.Lowercase

/-!
# Where the analysis of a program begins

It begins at the main functions of the program's main packages, and at the test functions of the
other packages that the user named.

* `isTestEntry`  names of test functions;
* `Scope.ofProgram`  the packages of either sort, and how many test functions there are.
-/

namespace ParamThreading

/-- The name of a test, benchmark, fuzz test or example: the word is not followed by a lower-case
letter. -/
def isTestEntry (name : String) : Bool :=
  ["Test", "Benchmark", "Fuzz", "Example"].any fun word =>
    match Cut.afterStart? word.toList name.toList with
    | some rest => !rest.head?.any Lowercase.holds
    | none => false

/-- The packages that seed the analysis. -/
structure Scope where
  mains : List PackageId
  testPackages : List PackageId
  testFunctions : Nat
deriving DecidableEq, Repr, Inhabited

namespace SourceFile

def functionNames (f : SourceFile) : List String :=
  (f.tree.codeChildren.filter (·.kind = .functionDeclaration)).filterMap (·.textIn? .name f.text)

end SourceFile

namespace Scope

/-- A package named `main` that declares a function `main`. -/
def isMain (program : Program) (pkg : Package) : Bool :=
  pkg.name == "main" && pkg.files.any fun f => (program.file f).functionNames.contains "main"

/-- The names of the test functions of a package, with repetition. -/
def testNames (program : Program) (pkg : Package) : List String :=
  ((pkg.files.map program.file).filter (·.isTest)).flatMap fun f =>
    f.functionNames.filter isTestEntry

def add (program : Program) (scope : Scope) (id : PackageId) : Scope :=
  let pkg := program.package id
  if isMain program pkg then { scope with mains := scope.mains ++ [id] }
  else { scope with
    testPackages := scope.testPackages ++ [id]
    testFunctions := scope.testFunctions + (testNames program pkg).length }

def ofProgram (program : Program) : Scope :=
  let initial := (List.range program.packages.length).filter fun id => (program.package id).initial
  initial.foldl (add program) ⟨[], [], 0⟩

def hasRoots (scope : Scope) : Bool :=
  !scope.mains.isEmpty || scope.testFunctions > 0

end Scope

end ParamThreading
