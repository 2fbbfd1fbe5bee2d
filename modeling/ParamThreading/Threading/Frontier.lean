import ParamThreading.Position.Address

/-!
# Frontiers: what an edit touches

What an edit touches: parameter lists and calls, each once and in the order in which they were
found.

* `Frontier.addSignature`, `Frontier.addCallSite`  record a target unless it is there;
* `Frontier.touchedFiles`  the files of the targets;
* `PlannedEdit`  a target as it is reported.
-/

namespace ParamThreading

/-- Parameter lists and calls to edit. -/
structure Frontier where
  signatures : List Address
  callSites : List Address
deriving Inhabited

namespace Frontier

def empty : Frontier := ⟨[], []⟩

def hasSignature (f : Frontier) (k : Key) : Bool :=
  f.signatures.any (·.key == k)

def hasCallSite (f : Frontier) (k : Key) : Bool :=
  f.callSites.any (·.callKey == k)

/-- Records a parameter list unless one at its place is there. -/
def addSignature (f : Frontier) (a : Address) : Frontier :=
  if f.hasSignature a.key then f else { f with signatures := f.signatures ++ [a] }

def addCallSite (f : Frontier) (a : Address) : Frontier :=
  if f.hasCallSite a.callKey then f else { f with callSites := f.callSites ++ [a] }

def seeded (a : Address) : Frontier :=
  empty.addSignature a

/-- The files of addresses, each once, in the order of their first address. -/
def filesOf (addresses : List Address) : List FileId :=
  (addresses.map (·.file)).eraseDups

/-- The files of all targets, those of parameter lists first. -/
def touchedFiles (f : Frontier) : List FileId :=
  filesOf (f.signatures ++ f.callSites)

end Frontier

/-- A target as it is reported. -/
structure PlannedEdit where
  file : String
  position : LineColumn
  offset : Nat
deriving DecidableEq, Repr, Inhabited

namespace PlannedEdit

def ofAddress (program : Program) (a : Address) : PlannedEdit :=
  let source := program.file a.file
  ⟨source.path.text, source.lines.position a.start, a.start⟩

end PlannedEdit

end ParamThreading
