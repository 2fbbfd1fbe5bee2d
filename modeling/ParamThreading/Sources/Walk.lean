import ParamThreading.Sources.IgnoreFile

/-!
# Finding the Go sources of a directory

Hidden entries, directories for test data and directories that begin with an underscore hold no
packages; ignore files and extra patterns exclude further entries.

* `Walker`  what to look for;
* `Walker.isGoSource`  whether a path names a Go source;
* `Walker.goFiles`  the Go sources below a root, sorted.
-/

namespace ParamThreading

structure Walker where
  /-- Excluded by an extra pattern; applied to paths relative to the root. -/
  excludes : String → Bool
  includeTests : Bool
  /-- Look into directories below the root. -/
  recursive : Bool

namespace Walker

/-- A walker with the patterns of some globs; a bad glob and its fault if there is one. -/
def ofGlobs (globs : List String) (includeTests recursive : Bool) :
    Except (String × Glob.Fault) Walker := do
  let patterns ← globs.mapM fun g =>
    match Glob.parse ⟨false, false⟩ g with
    | .ok p => .ok p
    | .error f => .error (g, f)
  return ⟨fun path => patterns.any (Glob.holds · path), includeTests, recursive⟩

def beginsWith (s : String) (c : Char) : Bool :=
  s.toList.head? == some c

def endsIn (s ending : String) : Bool :=
  ending.toList.isSuffixOf s.toList

/-- Whether a path names a Go source, which a test is only if tests are included. -/
def isGoSource (w : Walker) (p : Path) : Bool :=
  match p.fileName? with
  | none => false
  | some name =>
    endsIn name ".go" && !beginsWith name '.' && !beginsWith name '_' &&
      (w.includeTests || !endsIn name "_test.go")

/-- Whether the ignore files let an entry pass. An entry that they do not speak of passes unless it
is hidden. -/
def passes (d : Disk) (place : Place) (isDirectory : Bool) : Bool :=
  match IgnoreFile.verdict d place isDirectory with
  | .ignored => false
  | .kept => true
  | .silent => !place.getLast?.any (beginsWith · '.')

/-- Whether the walk enters the directory with these names below the base. -/
def enters (w : Walker) (d : Disk) (base : Place) (names : List String) : Bool :=
  passes d (base ++ names) true && !w.excludes ("/".intercalate names) &&
    !names.getLast?.any fun name => name == "testdata" || beginsWith name '_'

/-- Whether the walk comes to the file with these names below the base. -/
def reaches (w : Walker) (d : Disk) (base : Place) (names : List String) : Bool :=
  (w.recursive || names.length ≤ 1) &&
    ((List.range names.length).tail.all fun k => w.enters d base (names.take k)) &&
    passes d (base ++ names) false

/-- The names below a base of all files there. -/
def filesBelow (d : Disk) (base : Place) : List (List String) :=
  d.entries.filterMap fun (place, e) =>
    if !e.isDirectory && base.isPrefixOf place && place != base then some (place.drop base.length)
    else none

/-- What is compared with the patterns for a file that is shown by a path. -/
def comparedAs (root shown : Path) (names : List String) : String :=
  if root.components.isPrefixOf shown.components then "/".intercalate names else shown.text

/-- The Go sources below a root, or the root itself if it is one. -/
def goFiles (w : Walker) (d : Disk) (root : Path) : List Path :=
  match d.locate root with
  | .error _ => []
  | .ok base =>
    let found := if d.isFileAt base then [[]] else (filesBelow d base).filter (w.reaches d base)
    let shown := found.filterMap fun names =>
      let path := (names.foldl Path.join root).withoutDot
      if w.isGoSource path && !w.excludes (comparedAs root path names) then some path else none
    shown.mergeSort Path.le

end Walker

end ParamThreading
