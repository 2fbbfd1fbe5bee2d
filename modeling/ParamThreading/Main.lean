import ParamThreading.Run

/-!
# The command line

The program takes a picture of the files that a run may look at, runs on it, and carries over what
the run changed.
-/

namespace ParamThreading

namespace Main

def resolve (start : Place) (names : List String) : Place :=
  names.foldl (fun here name =>
    if name == "" || name == "." then here
    else if name == ".." then here.dropLast
    else here ++ [name]) start

/-- The place of a path that is followed from a directory. -/
def placeFrom (cwd : Place) (path : String) : Place :=
  if path.toList.head? == some '/' then resolve [] (Path.segments ⟨path⟩)
  else resolve cwd (Path.segments ⟨path⟩)

def pathOf (place : Place) : String :=
  (Path.ofPlace place).text

def exists? (place : Place) : IO Bool := do
  return (← ((← IO.currentDir) / pathOf place).pathExists)

def directory? (place : Place) : IO Bool := do
  return (← ((← IO.currentDir) / pathOf place).isDir)

/-- The names in a directory; none if it cannot be read. -/
def namesIn (place : Place) : IO (List String) := do
  let here ← IO.currentDir
  try
    return (← (here / pathOf place).readDir).toList.map (·.fileName)
  catch _ => return []

/-- Whether the content of a file with this name can matter. -/
def matters (name : String) : Bool :=
  Walker.endsIn name ".go" || Settings.defaultNames.contains name ||
    [".gitignore", ".ignore", "exclude", "go.mod"].contains name

def addEntry (d : Disk) (place : Place) : IO Disk := do
  if !(← exists? place) then return d
  else if ← directory? place then
    return if (d.entry? place).isSome then d else d.withEntry place .directory
  else
    let content ← try IO.FS.readBinFile (pathOf place) catch _ => pure .empty
    return d.withEntry place (.file content)

/-- A picture with all that is below a directory. Very deep nests are cut off. -/
def addTree : Nat → Disk → Place → IO Disk
  | 0, d, _ => return d
  | n + 1, d, place => do
    let d ← addEntry d place
    (← namesIn place).foldlM (fun d name => do
      let below := place ++ [name]
      if ← directory? below then addTree n d below
      else if matters name then addEntry d below
      else return d.withEntry below (.file .empty)) d

def above (place : Place) : List Place :=
  (List.range (place.length + 1)).map place.take

/-- The files that count wherever they stand above a target. -/
def landmarks : List (List String) :=
  [["go.mod"], [".gitignore"], [".ignore"], [".git"], [".git", "info", "exclude"]]

/-- The tree to picture for a target: its module's if it has one. -/
def treeOf (place : Place) : IO Place := do
  let base := if ← directory? place then place else place.dropLast
  let module? ← (above base).reverse.findM? fun dir => exists? (dir ++ ["go.mod"])
  return module?.getD base

/-- A picture of what a run with these arguments may look at. -/
def picture (cwd : Place) (args : CommandLine.Arguments) : IO Disk := do
  let targets := args.targets.map fun t =>
    placeFrom cwd (String.ofList (Loading.withoutDots t.toList.length t.toList))
  let start : Disk := ({ entries := [], cwd } : Disk).withEntry cwd .directory
  let settings := Settings.defaultNames ++ args.config.toList ++
    args.config.toList.flatMap fun c => Document.Format.extensions.map fun (e, _) => c ++ "." ++ e
  let d ← settings.foldlM (fun d name => addEntry d (placeFrom cwd name)) start
  let d ← (cwd :: targets).foldlM (fun d target =>
    (above target).foldlM (fun d dir =>
      landmarks.foldlM (fun d names => addEntry d (dir ++ names)) d) d) d
  let d ← targets.foldlM addEntry d
  let trees ← targets.mapM treeOf
  trees.eraseDups.foldlM (addTree 64) d

/-- Carries over the files that differ between two pictures. -/
def carryOver (before after : Disk) : IO Unit :=
  after.entries.forM fun (place, entry) => do
    match entry with
    | .directory => pure ()
    | .file content =>
      if before.entries.lookup place != some entry then
        let path := pathOf place
        IO.FS.writeBinFile (path ++ ".new") content
        IO.FS.rename (path ++ ".new") path

def environment : IO (List (String × String)) := do
  let names := ["ARGTHREAD_IGNORE_PATTERNS", "ARGTHREAD_SKIP_EXISTS", "ARGTHREAD_PACKAGE_REGEXP",
    "ARGTHREAD_INCLUDE_TESTS", "ARGTHREAD_LOAD_DEPENDENCIES"]
  let found ← names.mapM fun name => do
    return (← IO.getEnv name).map fun value => (name, value)
  return found.filterMap id

def helpText : String :=
  "Add a parameter to a Go function and thread it through every transitive caller\n\n" ++
  "Usage: add-argument [OPTIONS] --arg <NAME TYPE> --pos <POS> [TARGETS]...\n\n" ++
  "Options:\n" ++
  "      --arg <NAME TYPE>          New parameter as \"<name> <type>\"\n" ++
  "      --pos <POS>                Target function: <file>:#<offset> or " ++
  "<file>:#<start>,#<end>\n" ++
  "  -w, --write                    Write results to the source files instead of stdout\n" ++
  "      --skip-exists[=<BOOL>]     Leave lists alone that begin with the parameter already\n" ++
  "      --package-regexp <REGEXP>  Only files whose path matches are written or printed\n" ++
  "      --diff                     Print a unified diff per file\n" ++
  "      --config <PATH>            Explicit configuration file\n" ++
  "      --no-color                 Disable colored output\n" ++
  "      --quiet                    Suppress non-essential output\n" ++
  "      --dry-run                  Print the planned edits as JSON\n" ++
  "  -v, --verbose...               More logging on stderr\n" ++
  "  -h, --help                     Print help\n" ++
  "  -V, --version                  Print version\n"

def runWith (args : CommandLine.Arguments) : IO UInt32 := do
  let cwd := placeFrom [] (← IO.currentDir).toString
  let before ← picture cwd args
  let result := run before (← environment) args
  carryOver before result.disk
  IO.print result.output
  result.warnings.forM fun w => IO.eprintln (" WARN " ++ w)
  match result.errorText with
  | some text =>
    IO.eprintln text
    return 1
  | none => return 0

end Main

end ParamThreading

def main (words : List String) : IO UInt32 := do
  match ParamThreading.CommandLine.Arguments.parse words with
  | .ok args => ParamThreading.Main.runWith args
  | .error .help =>
    IO.print ParamThreading.Main.helpText
    return 0
  | .error .version =>
    IO.println "add-argument 0.1.0"
    return 0
  | .error (.usage e) =>
    IO.eprintln ("Error: " ++ e.line ++ ".")
    return 1
