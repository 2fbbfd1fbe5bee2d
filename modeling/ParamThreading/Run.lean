import ParamThreading.CommandLine.Arguments
import ParamThreading.Diff.Unified
import ParamThreading.Pattern.Regexp
import ParamThreading.Settings.Loading
import ParamThreading.Sources.Loading
import ParamThreading.Threading.Plan
import ParamThreading.Threading.Report

/-!
# A run, from its arguments to its outcome

A run: settings and arguments, the program that they name, the plan, and what is done with it.

* `Job`  what a run is about to do, and `Job.prepare` how it comes about;
* `RunResult`  the disk that is left, what is printed, and the failure if there is one;
* `run`  a run on a disk.
-/

namespace ParamThreading

open CommandLine (Arguments)

/-- A program with a plan for it, and which of its files are to be shown or written. -/
structure Job where
  program : Program
  request : Request
  frontier : Frontier
  filterText : String
  filter : Pattern Char

namespace Job

def loadOptions (s : Settings) : LoadOptions :=
  ⟨s.ignorePatterns, s.includeTests, s.loadDependencies⟩

/-- Loads the settings and the program, and plans the edits. Arguments win over settings. -/
def prepare (d : Disk) (environment : List (String × String)) (args : Arguments) :
    Except Failure Job := do
  let settings ← (Settings.load d environment args.config).mapError .badSettings
  let filterText := args.packageRegexp.getD settings.packageRegexp
  match Regexp.parse filterText with
  | none => throw (.badRegexp filterText)
  | some filter =>
    let request ← Request.parse args.arg args.pos (args.skipExists.getD settings.skipExists)
    let program ← Program.load d args.targets (loadOptions settings)
    let frontier ← plan program d.canonical? request
    return { program, request, frontier, filterText, filter }

/-- Whether a file is to be shown or written. -/
def selects (job : Job) (file : FileId) : Bool :=
  Regexp.holds job.filter (job.program.file file).path.text

def skipWarning (job : Job) (file : FileId) : String :=
  "skipping " ++ (job.program.file file).path.text ++ ": does not match -package-regexp " ++
    Quoted.encode job.filterText

def selected (job : Job) : List FileId :=
  job.frontier.touchedFiles.filter job.selects

/-- The warnings of a job: targets passed over, then files passed over. -/
def warnings (job : Job) (applied : Applied) : List String :=
  applied.warnings ++ (job.frontier.touchedFiles.filter (!job.selects ·)).map job.skipWarning

def changes (job : Job) (edits : Edits) : List (Path × String) :=
  (job.selected.filter fun id => edits.render job.program id != (job.program.file id).text).map
    fun id => ((job.program.file id).path, edits.render job.program id)

def listing (job : Job) (edits : Edits) (file : FileId) : String :=
  "// " ++ (job.program.file file).path.text ++ "\n" ++ edits.render job.program file

def difference (job : Job) (edits : Edits) (file : FileId) : String :=
  let source := job.program.file file
  Diff.unified (source.path.text ++ ".orig") source.path.text source.text
    (edits.render job.program file)

end Job

/-- What a run leaves behind. -/
structure RunResult where
  disk : Disk
  output : String
  warnings : List String
  failure : Option Failure
deriving Inhabited

namespace RunResult

def errorText (o : RunResult) : Option String :=
  o.failure.map fun f => "Error: " ++ f.message ++ "."

end RunResult

/-- Writes the new texts, all of them or, if one cannot be staged, none. -/
def writeChanges (d : Disk) (args : Arguments) (changes : List (Path × String))
    (warnings : List String) : RunResult :=
  match d.replaceAll (changes.map fun change => (change.1, change.2.toUTF8)) with
  | (disk, some cause) => ⟨disk, "", warnings, some (.notWritten cause)⟩
  | (disk, none) =>
    let output := if args.quiet then "" else "✓ Updated " ++ toString changes.length ++ " file(s)\n"
    ⟨disk, output, warnings, none⟩

/-- Carries out a job: reports the plan, writes the files, or prints differences or new texts. -/
def Job.perform (job : Job) (d : Disk) (args : Arguments) : RunResult :=
  if args.dryRun then ⟨d, job.frontier.report job.program, [], none⟩
  else
    let applied := apply job.program job.frontier job.request
    let warnings := job.warnings applied
    if args.write then writeChanges d args (job.changes applied.edits) warnings
    else
      let shown := if args.diff then job.difference applied.edits else job.listing applied.edits
      ⟨d, String.join (job.selected.map shown), warnings, none⟩

def run (d : Disk) (environment : List (String × String)) (args : Arguments) : RunResult :=
  match Job.prepare d environment args with
  | .error f => ⟨d, "", [], some f⟩
  | .ok job => job.perform d args

end ParamThreading
