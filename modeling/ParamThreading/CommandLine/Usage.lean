import ParamThreading.CommandLine.Flag
import ParamThreading.Text.Blank
import ParamThreading.Text.Lines

/-!
# What is wrong with a command line, and how it is said

* `UsageError.line`  the text of an error on one line.
-/

namespace ParamThreading

namespace CommandLine

inductive UsageError where
  | unknown (shown : String)
  | valueRequired (setting : Setting)
  | truthRequired
  | noTruth (value : String)
  | unexpectedValue (value : String) (flag : Flag)
  | repeated (flag : Flag)
  | conflict (first second : Switch)
  | missing (settings : List Setting)
deriving DecidableEq, Repr, Inhabited

namespace UsageError

def truths : String := "\n  [possible values: true, false]"

def text : UsageError → String
  | unknown shown => "unexpected argument '" ++ shown ++ "' found"
  | valueRequired s => "a value is required for '" ++ s.shown ++ "' but none was supplied"
  | truthRequired =>
    "a value is required for '" ++ Flag.skipExists.shown ++ "' but none was supplied" ++ truths
  | noTruth value =>
    "invalid value '" ++ value ++ "' for '" ++ Flag.skipExists.shown ++ "'" ++ truths
  | unexpectedValue value flag =>
    "unexpected value '" ++ value ++ "' for '" ++ flag.shown ++ "' found; no more were expected"
  | repeated flag => "the argument '" ++ flag.shown ++ "' cannot be used multiple times"
  | conflict a b => "the argument '" ++ a.shown ++ "' cannot be used with '" ++ b.shown ++ "'"
  | missing settings =>
    "the following required arguments were not provided:" ++
      String.join (settings.map fun s => "\n  " ++ s.shown)

/-- The lines up to the first blank one, joined, without the points and colons at the end. -/
def line (e : UsageError) : String :=
  let lines := ((Lines.of e.text.toList).map Blank.trim).takeWhile (!·.isEmpty)
  let joined := [' '].intercalate lines
  String.ofList (joined.reverse.dropWhile fun c => c = '.' || c = ':').reverse

end UsageError

end CommandLine

end ParamThreading
