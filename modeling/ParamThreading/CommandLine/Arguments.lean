import ParamThreading.CommandLine.Usage

/-!
# The arguments of a command line

Words are read from left to right; a flag that takes a value is settled when it is clear which word,
if any, is its value.

* `Arguments`  what a command line asks for;
* `Draft`  what has been read;
* `Arguments.parse`  the arguments of words, or why there are none.
-/

namespace ParamThreading

namespace CommandLine

/-- What a command line asks for. -/
structure Arguments where
  arg : String
  pos : String
  write : Bool
  skipExists : Option Bool
  packageRegexp : Option String
  diff : Bool
  config : Option String
  targets : List String
  noColor : Bool
  quiet : Bool
  dryRun : Bool
  verbose : Nat
deriving DecidableEq, Repr, Inhabited

/-- Why a command line gives no arguments. -/
inductive Stop where
  | help
  | version
  | usage (error : UsageError)
deriving DecidableEq, Repr, Inhabited

/-- A flag whose value is not settled. -/
structure Pending where
  setting : Setting
  value : Option String
deriving DecidableEq, Repr, Inhabited

/-- What has been read of a command line. -/
structure Draft where
  settings : List (Setting × String) := []
  switches : List Switch := []
  skipExists : Option Bool := none
  verbose : Nat := 0
  targets : List String := []
  pending : Option Pending := none
deriving DecidableEq, Repr, Inhabited

namespace Draft

def value? (d : Draft) (s : Setting) : Option String :=
  d.settings.lookup s

def setValue (d : Draft) (s : Setting) (value : String) : Except UsageError Draft :=
  if (d.value? s).isSome then .error (.repeated (.setting s))
  else if s = .config && value.isEmpty then .error (.valueRequired s)
  else .ok { d with settings := d.settings ++ [(s, value)] }

def settle (d : Draft) : Except UsageError Draft :=
  match d.pending with
  | none => .ok d
  | some ⟨s, none⟩ => .error (.valueRequired s)
  | some ⟨s, some value⟩ => { d with pending := none }.setValue s value

def setSkipExists (d : Draft) (value : Option String) : Except UsageError Draft :=
  if d.skipExists.isSome then .error (.repeated .skipExists)
  else
    match value with
    | none => .ok { d with skipExists := some true }
    | some v =>
      if v == "true" then .ok { d with skipExists := some true }
      else if v == "false" then .ok { d with skipExists := some false }
      else if v.isEmpty then .error .truthRequired
      else .error (.noTruth v)

def addSwitch (d : Draft) (s : Switch) : Except UsageError Draft :=
  if d.switches.contains s then .error (.repeated (.switch s))
  else .ok { d with switches := d.switches ++ [s] }

/-- Verbosity grows no further than a byte allows. -/
def addVerbose (d : Draft) : Draft :=
  { d with verbose := min (d.verbose + 1) 255 }

def lift (r : Except UsageError Draft) : Except Stop Draft :=
  r.mapError .usage

def flag (d : Draft) (f : Flag) (value : Option String) : Except Stop Draft := do
  match f, value with
  | .setting s, some v => lift (d.settle.bind (·.setValue s v))
  | .setting s, none => return { ← lift d.settle with pending := some ⟨s, none⟩ }
  | .skipExists, v => lift (d.settle.bind (·.setSkipExists v))
  | f, some v => throw (.usage (.unexpectedValue v f))
  | .switch s, none => lift (d.settle.bind (·.addSwitch s))
  | .verbose, none => return (← lift d.settle).addVerbose
  | .help, none =>
    let _ ← lift d.settle
    throw .help
  | .version, none =>
    let _ ← lift d.settle
    throw .version

def letters (d : Draft) : List Char → Except Stop Draft
  | [] => .ok d
  | c :: cs =>
    match Flag.ofLetter? c with
    | none => .error (.usage (.unknown (String.ofList ['-', c])))
    | some f => do letters (← d.flag f none) cs

def target (d : Draft) (word : String) : Except Stop Draft := do
  let d ← lift d.settle
  return { d with targets := d.targets ++ [word] }

def word (d : Draft) (w : String) : Except Stop Draft :=
  match w.toList with
  | '-' :: '-' :: cs =>
    let (name, value) := nameAndValue cs
    match Flag.ofName? name with
    | some f => d.flag f value
    | none => .error (.usage (.unknown ("--" ++ name)))
  | '-' :: c :: cs => d.letters (c :: cs)
  | _ =>
    match d.pending with
    | some ⟨s, none⟩ => .ok { d with pending := some ⟨s, some w⟩ }
    | _ => d.target w

/-- Takes in words; after a bare double dash all of them are targets. -/
def words (d : Draft) : List String → Except Stop Draft
  | [] => .ok d
  | w :: ws => if w == "--" then ws.foldlM target d else do words (← d.word w) ws

/-- Writing and printing differences exclude each other. -/
def conflict? (d : Draft) : Option UsageError :=
  match d.switches.filter fun s => s = .write || s = .diff with
  | a :: b :: _ => some (.conflict a b)
  | _ => none

def finish (d : Draft) : Except UsageError Arguments := do
  let d ← d.settle
  match d.conflict? with
  | some e => throw e
  | none => pure ()
  match d.value? .arg, d.value? .pos with
  | some arg, some pos =>
    return { arg, pos
             write := d.switches.contains .write
             skipExists := d.skipExists
             packageRegexp := d.value? .packageRegexp
             diff := d.switches.contains .diff
             config := d.value? .config
             targets := if d.targets.isEmpty then ["."] else d.targets
             noColor := d.switches.contains .noColor
             quiet := d.switches.contains .quiet
             dryRun := d.switches.contains .dryRun
             verbose := d.verbose }
  | _, _ => throw (.missing ([Setting.arg, .pos].filter fun s => (d.value? s).isNone))

end Draft

namespace Arguments

/-- The arguments of words, without the name of the program. Flags may have one dash or two. -/
def parse (words : List String) : Except Stop Arguments := do
  let draft ← ({} : Draft).words (doubleDashed words)
  draft.finish.mapError .usage

end Arguments

end CommandLine

end ParamThreading
