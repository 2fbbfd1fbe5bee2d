import ParamThreading.Disk.Basic
import ParamThreading.Text.Utf8

/-!
# Reading source files

Files of more than a mebibyte are mapped instead of copied, which shows only in the words for a file
that is no text.

* `Disk.readText`  the text of a file and how it was read.
-/

namespace ParamThreading

/-- Why the text of a file cannot be had. -/
inductive ReadFailure where
  | unknownSize (path : Path) (cause : DiskError)
  | unreadable (path : Path) (cause : DiskError)
  | notText (path : Path)
  | mappedNotText (fault : Utf8.Fault)
deriving DecidableEq, Repr, Inhabited

namespace ReadFailure

def message : ReadFailure → String
  | unknownSize p e => "failed to read metadata for " ++ p.text ++ ": " ++ e.message
  | unreadable p e => "failed to read file " ++ p.text ++ ": " ++ e.message
  | notText p => "failed to read file " ++ p.text ++ ": stream did not contain valid UTF-8"
  | mappedNotText f => "source file is not valid UTF-8: " ++ f.message

end ReadFailure

/-- The text of a file, and whether it was mapped. -/
structure SourceText where
  text : String
  mapped : Bool
deriving DecidableEq, Repr, Inhabited

namespace Disk

/-- The size from which on files are mapped. -/
def mappedFrom : Nat := 1024 * 1024 + 1

def readText (d : Disk) (p : Path) : Except ReadFailure SourceText :=
  match d.locate p with
  | .error e => .error (.unknownSize p e)
  | .ok _ =>
    match d.read p with
    | .error e => .error (.unreadable p e)
    | .ok content =>
      let mapped := mappedFrom ≤ content.size
      match Utf8.decode content with
      | .ok text => .ok ⟨text, mapped⟩
      | .error f => .error (if mapped then .mappedNotText f else .notText p)

end Disk

end ParamThreading
