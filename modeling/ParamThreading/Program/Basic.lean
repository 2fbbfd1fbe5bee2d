import ParamThreading.Failure
import ParamThreading.Syntax.Node

/-!
# Programs: parsed files in packages

A program: parsed files, grouped into packages. Files and packages are named by their index.

* `SourceFile`, `Package`, `Program`  the data;
* `Program.findFile?`  the file of a path;
* `Program.packageByImportPath?`  the package that an import path names.
-/

namespace ParamThreading

/-- One imported package: the local name, if given, and the path. -/
structure Import where
  name : Option String
  path : String
deriving DecidableEq, Repr, Inhabited

abbrev FileId := Nat

abbrev PackageId := Nat

structure SourceFile where
  /-- The path as it was given, for output. -/
  path : Path
  /-- The path on disk, for comparison. -/
  canonical : Path
  package : PackageId
  text : String
  lines : LineIndex
  tree : Node
  imports : List Import
  isTest : Bool
deriving Inhabited

namespace SourceFile

def location (f : SourceFile) (offset : Nat) : Location :=
  ⟨f.path, f.lines.position offset⟩

end SourceFile

structure Package where
  name : String
  importPath : String
  /-- The names of the types declared at the top level, in order and without repetition. -/
  types : List String
  files : List FileId
  /-- Named by the user, as opposed to loaded because it is imported. -/
  initial : Bool
deriving DecidableEq, Repr, Inhabited

structure Program where
  files : List SourceFile
  packages : List Package
deriving Inhabited

namespace Program

/-- The file of an index; an empty file for an index out of range. -/
def file (p : Program) (id : FileId) : SourceFile :=
  (p.files[id]?).getD default

/-- The package of an index; an empty one for an index out of range. -/
def package (p : Program) (id : PackageId) : Package :=
  (p.packages[id]?).getD default

/-- The file of a path: first by the path as given, then by its place on disk. -/
def findFile? (p : Program) (onDisk : Path → Option Path) (path : Path) : Option FileId :=
  (p.files.findIdx? fun f => f.path.same path).or
    ((onDisk path).bind fun real => p.files.findIdx? fun f => f.canonical.same real)

def endsWith (s ending : String) : Bool :=
  ending.toList.isSuffixOf s.toList

/-- A package that can be imported: its path is not that of a test package. -/
def isLibrary (pkg : Package) : Bool :=
  !endsWith pkg.importPath "_test"

/-- The package that an import path names: the one with this very path, else the first one of which
one path ends in the other. -/
def packageByImportPath? (p : Program) (path : String) : Option PackageId :=
  (p.packages.findIdx? fun q => isLibrary q && q.importPath == path).or
    (p.packages.findIdx? fun q =>
      isLibrary q && q.importPath != "." &&
        (endsWith path ("/" ++ q.importPath) || endsWith q.importPath ("/" ++ path)))

end Program

end ParamThreading
