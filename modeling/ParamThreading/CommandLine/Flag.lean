import ParamThreading.Text.Cut

/-!
# The flags of the command line

* `Setting`  the flags that take a value, and `Switch` those that take none;
* `Flag`  all flags, with their names and how messages show them;
* `doubleDashed`  words with a second dash before the flags that have only one.
-/

namespace ParamThreading

namespace CommandLine

/-- Flags that take a value. -/
inductive Setting where
  | arg
  | pos
  | packageRegexp
  | config
deriving DecidableEq, Repr, Inhabited

/-- Flags that take no value and may be given once. -/
inductive Switch where
  | write
  | diff
  | noColor
  | quiet
  | dryRun
deriving DecidableEq, Repr, Inhabited

inductive Flag where
  | setting (s : Setting)
  | switch (s : Switch)
  /-- Takes an optional truth value, attached by an equals sign. -/
  | skipExists
  /-- May be given any number of times. -/
  | verbose
  | help
  | version
deriving DecidableEq, Repr, Inhabited

namespace Setting

def shown : Setting → String
  | arg => "--arg <NAME TYPE>"
  | pos => "--pos <POS>"
  | packageRegexp => "--package-regexp <REGEXP>"
  | config => "--config <PATH>"

end Setting

namespace Switch

def shown : Switch → String
  | write => "--write"
  | diff => "--diff"
  | noColor => "--no-color"
  | quiet => "--quiet"
  | dryRun => "--dry-run"

end Switch

namespace Flag

def named : List (String × Flag) :=
  [("arg", .setting .arg), ("pos", .setting .pos), ("write", .switch .write),
   ("skip-exists", .skipExists), ("package-regexp", .setting .packageRegexp),
   ("diff", .switch .diff), ("config", .setting .config), ("quiet", .switch .quiet),
   ("no-color", .switch .noColor), ("dry-run", .switch .dryRun), ("verbose", .verbose),
   ("help", .help), ("version", .version)]

def ofName? (name : String) : Option Flag :=
  named.lookup name

def ofLetter? : Char → Option Flag
  | 'w' => some (.switch .write)
  | 'v' => some .verbose
  | 'h' => some .help
  | 'V' => some .version
  | _ => none

def shown : Flag → String
  | setting s => s.shown
  | switch s => s.shown
  | skipExists => "--skip-exists[=<BOOL>]"
  | verbose => "--verbose..."
  | help => "--help"
  | version => "--version"

end Flag

def nameAndValue (cs : List Char) : String × Option String :=
  match Cut.cut? '=' cs with
  | some (name, value) => (String.ofList name, some (String.ofList value))
  | none => (String.ofList cs, none)

/-- The name of a flag with one dash gets another one. -/
def doubleDash (word : String) : String :=
  match word.toList with
  | '-' :: '-' :: _ => word
  | '-' :: cs => if (Flag.ofName? (nameAndValue cs).1).isSome then "-" ++ word else word
  | _ => word

/-- Words in which flags may have one dash, with two. What follows a bare double dash stays as it
is. -/
def doubleDashed : List String → List String
  | [] => []
  | word :: rest =>
    if word == "--" then word :: rest else doubleDash word :: doubleDashed rest

end CommandLine

end ParamThreading
