import ParamThreading.Disk.Basic

/-!
# Replacing files

All new contents are staged first, each in a temporary file beside its target, so that a directory
that is missing or cannot be written to is noticed before any target changes; then the temporary
files are renamed to their targets, one after the other. What is left of the temporary files when
something fails is removed.

* `Disk.stage`  the disk with a new content in a temporary file beside a path;
* `Disk.rename`  one target replaced by its temporary file;
* `Disk.replaceAll`  all targets, with the disk that is left and the failure, if any.
-/

namespace ParamThreading

/-- Why files were not replaced. -/
inductive ReplaceFailure where
  | noStaging (directory : Path) (cause : DiskError)
  | notReplaced (path : Path) (cause : DiskError)
deriving DecidableEq, Repr, Inhabited

namespace ReplaceFailure

def context : ReplaceFailure → String
  | noStaging p _ => "failed to create temp file in " ++ p.text
  | notReplaced p _ => "failed to replace " ++ p.text

def cause : ReplaceFailure → DiskError
  | noStaging _ e => e
  | notReplaced _ e => e

def message (f : ReplaceFailure) : String :=
  f.context ++ ": " ++ f.cause.message

end ReplaceFailure

namespace Disk

/-- The directory in which the new content of a path is staged. It stays closed in proofs, which
need to know no more than that it is a path. -/
@[irreducible]
def stagingOf (p : Path) : Path :=
  let dir := p.parent
  if dir.text.isEmpty then ⟨"."⟩ else dir

/-- A name that is longer than those on the disk and in the paths, and so none of them. -/
def temporaryName (d : Disk) (paths : List Path) : String :=
  let names := d.entries.flatMap (·.1) ++ paths.flatMap Path.segments
  ".tmp" ++ String.ofList (List.replicate ((names.map String.length).foldr max 0) 'x')

/-- Puts a new content in a temporary file beside its path. Its name is none of those in the paths.
-/
def stage (d : Disk) (paths : List Path) (p : Path) (content : ByteArray) :
    Except ReplaceFailure (Disk × Place) :=
  let dir := stagingOf p
  match d.locate dir with
  | .error e => .error (.noStaging dir e)
  | .ok here =>
    if d.isDirectoryAt here then
      let temporary := here ++ [d.temporaryName paths]
      .ok (d.put temporary content, temporary)
    else .error (.noStaging dir .notDirectory)

/-- Stages contents one after the other. If one cannot be staged, the temporary files before it go.
-/
def stageEach (paths : List Path) (d : Disk) :
    List (Path × ByteArray) → Disk × Except ReplaceFailure (List Place)
  | [] => (d, .ok [])
  | (p, content) :: rest =>
    match d.stage paths p content with
    | .error f => (d, .error f)
    | .ok (d', temporary) =>
      match stageEach paths d' rest with
      | (d'', .error f) => (d''.remove temporary, .error f)
      | (d'', .ok temporaries) => (d'', .ok (temporary :: temporaries))

def target (d : Disk) (p : Path) : Except DiskError Place :=
  match p.segments.reverse with
  | [] => .error .notFound
  | last :: above =>
    match d.follow p above.reverse with
    | .error e => .error e
    | .ok here =>
      if p.text.isEmpty then .error .notFound
      else if !d.isDirectoryAt here then .error .notDirectory
      else if last == "" then .error .notDirectory
      else if last == "." || last == ".." then .error .busy
      else if d.isDirectoryAt (here ++ [last]) then .error .isDirectory
      else .ok (here ++ [last])

/-- The disk after a temporary file took the place of its target. -/
def rename (d : Disk) (temporary : Place) (p : Path) : Except ReplaceFailure Disk :=
  match d.target p with
  | .error e => .error (.notReplaced p e)
  | .ok place =>
    match d.entry? temporary with
    | some (.file content) => .ok ((d.remove temporary).put place content)
    | _ => .error (.notReplaced p .notFound)

/-- Replaces targets one after the other and stops at the first that fails, where the remaining
temporary files go. -/
def replaceEach (d : Disk) : List (Path × Place) → Disk × Option ReplaceFailure
  | [] => (d, none)
  | (p, temporary) :: rest =>
    match d.rename temporary p with
    | .error f => ((temporary :: rest.map (·.2)).foldl remove d, some f)
    | .ok d' => replaceEach d' rest

/-- Stages all new contents, then replaces all targets. -/
def replaceAll (d : Disk) (files : List (Path × ByteArray)) : Disk × Option ReplaceFailure :=
  let paths := files.map (·.1)
  match d.stageEach paths files with
  | (d', .error f) => (d', some f)
  | (d', .ok temporaries) => d'.replaceEach (paths.zip temporaries)

end Disk

end ParamThreading
