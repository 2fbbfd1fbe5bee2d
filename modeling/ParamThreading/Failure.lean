import ParamThreading.Disk.Reading
import ParamThreading.Disk.Replacement
import ParamThreading.Pattern.Glob
import ParamThreading.Settings.Basic
import ParamThreading.Syntax.Kind
import ParamThreading.Text.LineIndex
import ParamThreading.Text.Quoted

/-!
# The ways in which a run can fail, and the words for each

* `Location`  a place in a file as messages show it;
* `Failure`  the causes;
* `Failure.message`  the text of a cause.
-/

namespace ParamThreading

/-- A place in a file. -/
structure Location where
  path : Path
  position : LineColumn
deriving DecidableEq, Repr, Inhabited

namespace Location

def render (l : Location) : String :=
  l.path.text ++ ":" ++ l.position.render

end Location

/-- What went wrong on the way to an edit. -/
inductive Failure where
  /-- The new parameter is not a name and a type. -/
  | invalidArgument (text : String)
  | invalidPosition (text : String)
  | fileNotLoaded (path : Path)
  | noSyntaxAt (path : Path) (start stop : Nat)
  /-- A range that had to be a node's extent is not. -/
  | ambiguousSelection (within : Kind)
  | noAnalysisRoot
  | syntaxErrors (path : Path)
  | noPackageClause (path : Path)
  | outsideFunction (location : Location)
  /-- A function that the call graph does not know. -/
  | unknownFunction (location : Location)
  | noEnclosingFunction (location : Location)
  /-- A target of another kind than the edit needs; no kind for an address without nodes. -/
  | wrongKind (expected : Kind) (found : Option Kind) (location : Location)
  | badGlob (glob : String) (fault : Glob.Fault)
  | packageNotFound (target : String)
  | noGoFiles (targets : List String)
  | unreadable (cause : ReadFailure)
  | badSettings (cause : SettingsFailure)
  | badRegexp (text : String)
  | notWritten (cause : ReplaceFailure)
deriving DecidableEq, Repr, Inhabited

namespace Failure

def message : Failure → String
  | invalidArgument text =>
    "invalid -arg " ++ Quoted.encode text ++ ": want \"<name> <type>\""
  | invalidPosition text => "invalid source position -pos=" ++ Quoted.encode text
  | fileNotLoaded path => "file " ++ path.text ++ " is not part of the loaded program"
  | noSyntaxAt path start stop =>
    "no syntax at " ++ path.text ++ ":#" ++ toString start ++ ",#" ++ toString stop
  | ambiguousSelection within => "ambiguous selection within " ++ within.describe
  | noAnalysisRoot => "analysis scope has no main and no tests"
  | syntaxErrors path => "syntax errors in " ++ path.text
  | noPackageClause path => path.text ++ " has no package clause"
  | outsideFunction l => l.render ++ ": this position is not inside a function"
  | unknownFunction l => l.render ++ ": no function built for this location"
  | noEnclosingFunction l => "no enclosing function for call at " ++ l.render
  | wrongKind expected found l =>
    "pos must be in a " ++ expected.describe ++ ", got " ++
      (found.map Kind.describe).getD "empty node path" ++ " instead at " ++ l.render
  | badGlob glob fault => "error parsing glob '" ++ glob ++ "': " ++ fault.message
  | packageNotFound target => "cannot find package " ++ Quoted.encode target
  | noGoFiles targets => "no Go files in " ++ " ".intercalate targets
  | unreadable cause => cause.message
  | badSettings cause => cause.message
  | badRegexp text =>
    "invalid -package-regexp " ++ Quoted.encode text ++ ": regex parse error:\n    " ++ text ++
      "\nerror: not a regular expression"
  | notWritten cause => "no files were written: " ++ cause.message

end Failure

end ParamThreading
