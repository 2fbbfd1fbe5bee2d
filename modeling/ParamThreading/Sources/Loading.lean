import ParamThreading.Program.Assembly
import ParamThreading.Sources.Walk

/-!
# Loading programs from disk

Targets are directories, directories with all that is below them, written `dir/...`, or single
files. Packages of the same module that loaded files import, directly or not, are loaded too,
without their tests.

* `Module.find?`  the module that a path belongs to, declared by the nearest `go.mod`;
* `Loading.dependencies`  the packages of a module that files import, round by round;
* `Program.load`  the program of some targets.
-/

namespace ParamThreading

/-- What to load. -/
structure LoadOptions where
  ignorePatterns : List String
  includeTests : Bool
  loadDependencies : Bool
deriving DecidableEq, Repr, Inhabited

/-- A module: its directory and the path by which it is imported. -/
structure Module where
  directory : Place
  path : String
deriving DecidableEq, Repr, Inhabited

namespace Module

/-- The path that a `go.mod` declares. -/
def declaredPath? (text : String) : Option String :=
  (Lines.of text.toList).findSome? fun line =>
    (Cut.afterStart? "module".toList (Blank.trim line)).map fun rest =>
      unquote (String.ofList (Blank.trim rest))

def textAt? (d : Disk) (dir : Place) : Option String :=
  match d.entry? (dir ++ ["go.mod"]) with
  | some (.file content) => (Utf8.decode content).toOption
  | _ => none

/-- The module that a path belongs to. A `go.mod` that declares no path ends the search. -/
def find? (d : Disk) (start : Path) : Option Module :=
  match d.locate start with
  | .error _ => none
  | .ok place =>
    let nearest := if d.isFileAt place then place.dropLast else place
    let dirs := (List.range (nearest.length + 1)).reverse.map nearest.take
    (dirs.findSome? fun dir => (textAt? d dir).map fun text => (dir, text)).bind fun (dir, text) =>
      (declaredPath? text).map fun path => ⟨dir, path⟩

/-- The directory of a package of the module, given its import path. -/
def directoryOf? (m : Module) (importPath : String) : Option Path :=
  if importPath == m.path then some ((Path.ofPlace m.directory).join "")
  else
    (Cut.afterStart? (m.path.toList ++ ['/']) importPath.toList).map fun rest =>
      if rest.head? == some '/' then ⟨String.ofList rest⟩
      else (Path.ofPlace m.directory).join (String.ofList rest)

end Module

namespace Loading

/-- The paths without those that lead to a place seen before. -/
def distinct (d : Disk) (paths : List Path) : List Path :=
  paths.foldl (fun kept p =>
    if kept.any fun q => (d.canonicalOrSelf q).same (d.canonicalOrSelf p) then kept
    else kept ++ [p]) []

def parse (d : Disk) (initial : Bool) (p : Path) : Except Failure ParsedFile :=
  match d.readText p with
  | .error f => .error (.unreadable f)
  | .ok source => ParsedFile.ofText p (d.canonicalOrSelf p) source.text initial

def parseAll (d : Disk) (initial : Bool) (paths : List Path) : Except Failure (List ParsedFile) :=
  (distinct d paths).mapM (parse d initial)

/-- Where the search for dependencies stands: the directories that are loaded and the files found.
-/
structure Progress where
  directories : List (List Component)
  files : List ParsedFile

/-- Loads the package of one import, if it belongs to the module, exists and is not loaded yet.
Gives the imports of its files. -/
def dependency (d : Disk) (w : Walker) (m : Module) (progress : Progress) (importPath : String) :
    Except Failure (Progress × List String) :=
  match m.directoryOf? importPath with
  | none => .ok (progress, [])
  | some dir =>
    let canonical := (d.canonicalOrSelf dir).components
    if !d.isDirectory dir || progress.directories.contains canonical then .ok (progress, [])
    else do
      let files ← parseAll d false (w.goFiles d dir)
      return (⟨progress.directories ++ [canonical], progress.files ++ files⟩,
        files.flatMap fun f => f.imports.map (·.path))

/-- Loads the packages of imports in order. Gives the imports that they add. -/
def round (d : Disk) (w : Walker) (m : Module) :
    Progress → List String → Except Failure (Progress × List String)
  | progress, [] => .ok (progress, [])
  | progress, importPath :: rest => do
    let (progress, found) ← dependency d w m progress importPath
    let (progress, more) ← round d w m progress rest
    return (progress, found ++ more)

def rounds (d : Disk) (w : Walker) (m : Module) :
    Nat → Progress → List String → Except Failure Progress
  | 0, progress, _ => .ok progress
  | _ + 1, progress, [] => .ok progress
  | n + 1, progress, imports => do
    let (progress, imports) ← round d w m progress imports
    rounds d w m n progress imports

/-- The files of the packages that files import from their module. Every round but the last loads a
directory, so there is one round for each entry of the disk and two more. -/
def dependencies (d : Disk) (w : Walker) (m : Module) (parsed : List ParsedFile) :
    Except Failure (List ParsedFile) := do
  let imports := parsed.flatMap fun f => f.imports.map (·.path)
  let progress ← rounds d w m (d.entries.length + 2) ⟨parsed.map (·.directory), []⟩ imports
  return progress.files

def dots : List Char := ['.', '.', '.']

def withoutDots : Nat → List Char → List Char
  | 0, cs => cs
  | n + 1, cs =>
    match Cut.beforeEnd? dots cs with
    | some rest => withoutDots n rest
    | none => cs

def filesOf (d : Disk) (w : Walker) (target : String) : Except Failure (List Path) :=
  match Cut.beforeEnd? dots target.toList with
  | some root =>
    let root := (root.reverse.dropWhile (· == '/')).reverse
    let root := if root.isEmpty then ['.'] else root
    .ok ({ w with recursive := true }.goFiles d ⟨String.ofList root⟩)
  | none =>
    let path : Path := ⟨target⟩
    if d.isDirectory path then .ok (w.goFiles d path)
    else if d.isFile path then .ok [path]
    else .error (.packageNotFound target)

def walker (options : LoadOptions) (includeTests : Bool) : Except Failure Walker :=
  match Walker.ofGlobs options.ignorePatterns includeTests false with
  | .ok w => .ok w
  | .error (glob, fault) => .error (.badGlob glob fault)

end Loading

namespace Program

/-- The program of some targets, or of the working directory if there are none. -/
def load (d : Disk) (targets : List String) (options : LoadOptions) : Except Failure Program := do
  let targets := if targets.isEmpty then ["."] else targets
  let w ← Loading.walker options options.includeTests
  let files ← targets.mapM (Loading.filesOf d w)
  if files.flatten.isEmpty then throw (.noGoFiles targets)
  let parsed ← Loading.parseAll d true files.flatten
  let first := (targets.head?.getD ".").toList
  let start := Loading.withoutDots first.length first
  let module? := Module.find? d ⟨if start.isEmpty then "." else String.ofList start⟩
  let base := (Path.ofPlace ((module?.map (·.directory)).getD d.cwd)).components
  match module? with
  | none => return assemble parsed base none
  | some m =>
    if options.loadDependencies then
      let w ← Loading.walker options false
      let more ← Loading.dependencies d w m parsed
      return assemble (parsed ++ more) base (some m.path)
    else return assemble parsed base (some m.path)

end Program

end ParamThreading
