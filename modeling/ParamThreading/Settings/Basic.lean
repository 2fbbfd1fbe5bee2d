import ParamThreading.Path
import ParamThreading.Text.LineIndex
import ParamThreading.Text.Quoted

/-!
# The settings of a run

Settings of a run, which files and the environment may change, and why they cannot be had.

* `Settings`  what can be set, with defaults;
* `SettingsFailure`  what is wrong with a file or a value.
-/

namespace ParamThreading

structure Settings where
  /-- Entries that match are not loaded. -/
  ignorePatterns : List String := ["vendor/**", "vendor"]
  /-- Leave lists alone that begin with the parameter already. -/
  skipExists : Bool := true
  /-- Only files whose path matches are written or printed. -/
  packageRegexp : String := ".*"
  includeTests : Bool := true
  /-- Load packages of the same module that are imported. -/
  loadDependencies : Bool := true
deriving DecidableEq, Repr, Inhabited

/-- Why there are no settings. -/
inductive SettingsFailure where
  | notFound (name : String)
  | unknownFormat (path : Path)
  /-- The file at a path is not well formed, from a position on if it is known, or no table. -/
  | malformed (path : Path) (position : Option LineColumn)
  /-- A value is of another kind than its key needs; its origin unless it has several. -/
  | wrongKind (found expected key : String) (origin : Option String)
deriving DecidableEq, Repr, Inhabited

namespace SettingsFailure

def context : SettingsFailure → String
  | wrongKind _ _ _ _ => "failed to parse configuration"
  | _ => "failed to load configuration"

def cause : SettingsFailure → String
  | notFound name => "configuration file \"" ++ name ++ "\" not found"
  | unknownFormat p =>
    "configuration file \"" ++ p.text ++ "\" is not of a registered file format"
  | malformed p none => "malformed document in " ++ p.text
  | malformed p (some position) =>
    "TOML parse error at line " ++ toString position.line ++ ", column " ++
      toString position.column ++ "\nmalformed document in " ++ p.text
  | wrongKind found expected key origin =>
    "invalid type: " ++ found ++ ", expected " ++ expected ++ " for key `" ++ key ++ "`" ++
      (origin.map (" in " ++ ·)).getD ""

def message (f : SettingsFailure) : String :=
  f.context ++ ": " ++ f.cause

end SettingsFailure

end ParamThreading
