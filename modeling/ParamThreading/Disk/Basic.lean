import ParamThreading.Path

/-!
# Disks: files, directories and paths

A disk: files and directories by their place, the names from the root down, and the working
directory. A path is followed from the working directory, or from the root if it begins with a
separator; every step but the last needs a directory.

* `Disk.locate`  the place that a path leads to, or why it leads nowhere;
* `Disk.canonical?`  the path of that place from the root;
* `Disk.read`, `Disk.put`  the content of a file and its replacement;
* `Disk.remove`  the disk without a file.
-/

namespace ParamThreading

/-- The names on the way from the root. -/
abbrev Place := List String

/-- What a place holds. -/
inductive Entry where
  | file (content : ByteArray)
  | directory
deriving Inhabited

namespace Entry

def isDirectory : Entry → Bool
  | file _ => false
  | directory => true

instance : DecidableEq Entry
  | file a, file b =>
    if h : a.data = b.data then isTrue (congrArg file (ByteArray.ext h))
    else isFalse fun heq => h (congrArg ByteArray.data (Entry.file.inj heq))
  | directory, directory => isTrue rfl
  | file _, directory => isFalse nofun
  | directory, file _ => isFalse nofun

end Entry

/-- Why the system refuses to follow a path or to use what it finds there. -/
inductive DiskError where
  | notFound
  | busy
  | notDirectory
  | isDirectory
deriving DecidableEq, Repr, Inhabited

namespace DiskError

def message : DiskError → String
  | notFound => "No such file or directory (os error 2)"
  | busy => "Device or resource busy (os error 16)"
  | notDirectory => "Not a directory (os error 20)"
  | isDirectory => "Is a directory (os error 21)"

end DiskError

/-- Files and directories, and the working directory. -/
structure Disk where
  entries : List (Place × Entry)
  cwd : Place
deriving Inhabited

namespace Disk

/-- What a place holds; the root is always a directory. -/
def entry? (d : Disk) (place : Place) : Option Entry :=
  if place.isEmpty then some .directory else d.entries.lookup place

def isDirectoryAt (d : Disk) (place : Place) : Bool :=
  (d.entry? place).any (·.isDirectory)

def isFileAt (d : Disk) (place : Place) : Bool :=
  (d.entry? place).any (!·.isDirectory)

def step (d : Disk) (here : Place) (segment : String) : Except DiskError Place :=
  if !d.isDirectoryAt here then .error .notDirectory
  else if segment == "" || segment == "." then .ok here
  else if segment == ".." then .ok here.dropLast
  else if (d.entry? (here ++ [segment])).isSome then .ok (here ++ [segment])
  else .error .notFound

def startOf (d : Disk) (p : Path) : Place :=
  if p.text.toList.head? == some '/' then [] else d.cwd

def follow (d : Disk) (p : Path) (segments : List String) : Except DiskError Place :=
  segments.foldlM d.step (d.startOf p)

def locate (d : Disk) (p : Path) : Except DiskError Place :=
  if p.text.isEmpty then .error .notFound else d.follow p p.segments

/-- The path from the root to the place that a path leads to. -/
def canonical? (d : Disk) (p : Path) : Option Path :=
  match d.locate p with
  | .ok place => some (Path.ofPlace place)
  | .error _ => none

def canonicalOrSelf (d : Disk) (p : Path) : Path :=
  (d.canonical? p).getD p

def isDirectory (d : Disk) (p : Path) : Bool :=
  match d.locate p with
  | .ok place => d.isDirectoryAt place
  | .error _ => false

def isFile (d : Disk) (p : Path) : Bool :=
  match d.locate p with
  | .ok place => d.isFileAt place
  | .error _ => false

def read (d : Disk) (p : Path) : Except DiskError ByteArray :=
  match d.locate p with
  | .error e => .error e
  | .ok place =>
    match d.entry? place with
    | some (.file content) => .ok content
    | some .directory => .error .isDirectory
    | none => .error .notFound

def put (d : Disk) (place : Place) (content : ByteArray) : Disk :=
  if (d.entries.lookup place).isSome then
    { d with
      entries := d.entries.map fun (q, e) => if q = place then (q, .file content) else (q, e) }
  else { d with entries := d.entries ++ [(place, .file content)] }

def remove (d : Disk) (place : Place) : Disk :=
  { d with entries := d.entries.filter (·.1 != place) }

/-- The disk with a file, or a directory, and all directories on the way to it. -/
def withEntry (d : Disk) (place : Place) (e : Entry) : Disk :=
  let above := (List.range place.length).map place.take
  let missing := above.filter fun q => !q.isEmpty && (d.entries.lookup q).isNone
  let entries := d.entries.filter (·.1 != place)
  { d with entries := entries ++ missing.map (·, .directory) ++ [(place, e)] }

end Disk

end ParamThreading
