import ParamThreading.Program.Basic
import ParamThreading.Syntax.Grammar

/-!
# From sources to a program

Files of one directory with one package clause make a package; packages are ordered by directory and
name, the files of a package by path.

* `ParsedFile.ofText`  a parsed source with its package clause and imports;
* `Program.assemble`  the program of parsed files;
* `Program.ofSources`  the program of sources in memory.
-/

namespace ParamThreading

/-- A string literal without its quotes; any other text as it is. -/
def unquote (literal : String) : String :=
  let inside (quote : Char) : Option (List Char) :=
    (Cut.afterStart? [quote] literal.toList).bind (Cut.beforeEnd? [quote])
  (((inside '"').or (inside '`')).map String.ofList).getD literal

/-- A file after parsing, before it has a package. -/
structure ParsedFile where
  path : Path
  canonical : Path
  text : String
  tree : Node
  packageName : String
  imports : List Import
  isTest : Bool
  initial : Bool
deriving Inhabited

namespace ParsedFile

/-- The imports of a declaration, the last one of a list first. -/
def importsOf (text : String) (declaration : Node) : List Import :=
  let specs := declaration.codeChildren.flatMap fun n =>
    if n.kind = .importSpecList then n.codeChildren else [n]
  specs.reverse.filterMap fun spec =>
    if spec.kind = .importSpec then
      (spec.textIn? .path text).map fun path => ⟨spec.textIn? .name text, unquote path⟩
    else none

def packageNameOf? (text : String) (root : Node) : Option String := do
  let clause ← root.codeChildren.find? (·.kind = .packageClause)
  let name ← clause.codeChildren.head?
  return name.text text

/-- Parses a source that lies at `canonical` on disk. -/
def ofText (path canonical : Path) (text : String) (initial : Bool) :
    Except Failure ParsedFile := do
  let some tree := Grammar.parse text | throw (.syntaxErrors path)
  let some packageName := packageNameOf? text tree | throw (.noPackageClause path)
  return {
    path, canonical, text, tree, packageName, initial
    imports := (tree.codeChildren.filter (·.kind = .importDeclaration)).flatMap (importsOf text)
    isTest := path.fileName?.any (Program.endsWith · "_test.go") }

def directory (f : ParsedFile) : List Component :=
  Component.parentOf f.canonical.components

/-- What a file's package is known by. -/
def group (f : ParsedFile) : List Component × String :=
  (f.directory, f.packageName)

def types (f : ParsedFile) : List String :=
  (f.tree.codeChildren.filter (·.kind = .typeDeclaration)).flatMap fun declaration =>
    declaration.codeChildren.filterMap fun spec => spec.textIn? .name f.text

end ParsedFile

namespace Program

/-- The order of packages: by directory, then by name. -/
def groupLe (a b : List Component × String) : Bool :=
  ((Component.compareAll a.1 b.1).then (Ord.compare a.2 b.2)).isLE

/-- What is left of a list without the given beginning; all of it if it begins otherwise. -/
def withoutBase (base dir : List Component) : List Component :=
  if base.isPrefixOf dir then dir.drop base.length else dir

/-- The import path of a directory below a base directory, which a module may name. -/
def importPathOf (base : List Component) (module : Option String) (dir : List Component) : String :=
  let rel := Component.joined (withoutBase base dir)
  match module, rel.isEmpty with
  | some m, true => m
  | some m, false => m ++ "/" ++ rel
  | none, true => "."
  | none, false => rel

/-- The package of a group of files whose first file gets the given index. -/
def packageOf (base : List Component) (module : Option String) (group : List Component × String)
    (members : List ParsedFile) (firstFile : FileId) : Package :=
  let external := endsWith group.2 "_test" && members.all (·.isTest)
  { name := group.2
    importPath := importPathOf base module group.1 ++ (if external then "_test" else "")
    types := (members.flatMap (·.types)).eraseDups.mergeSort fun a b => (Ord.compare a b).isLE
    files := List.range' firstFile members.length
    initial := members.any (·.initial) }

def fileOf (id : PackageId) (f : ParsedFile) : SourceFile :=
  { path := f.path, canonical := f.canonical, package := id, text := f.text
    lines := LineIndex.ofText f.text, tree := f.tree, imports := f.imports, isTest := f.isTest }

def addGroup (base : List Component) (module : Option String) (parsed : List ParsedFile)
    (p : Program) (group : List Component × String) : Program :=
  let members := (parsed.filter (·.group = group)).mergeSort fun a b => a.path.le b.path
  { files := p.files ++ members.map (fileOf p.packages.length)
    packages := p.packages ++ [packageOf base module group members p.files.length] }

/-- The program of parsed files. Import paths are relative to the base directory, which stands for
the module if there is one. -/
def assemble (parsed : List ParsedFile) (base : List Component) (module : Option String) :
    Program :=
  let groups := (parsed.map (·.group)).eraseDups.mergeSort groupLe
  groups.foldl (addGroup base module parsed) ⟨[], []⟩

/-- The program of sources in memory, given where paths lead on disk. The first source that does not
parse is the failure. -/
def ofSources (onDisk : Path → Option Path) (sources : List (Path × String)) :
    Except Failure Program := do
  let parsed ← sources.mapM fun (path, text) =>
    ParsedFile.ofText path ((onDisk path).getD path) text true
  return assemble parsed [] none

end Program

end ParamThreading
