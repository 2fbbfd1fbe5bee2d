import ParamThreading.Text.Cut

/-!
# Paths of files

A path is shown as it was written, but compared by its components: repeated separators and inner
dots do not count, while a dot at the very beginning does.

* `Path.components`  what a path is compared by;
* `Path.same`, `Path.le`  equality and order of paths;
* `Path.join`, `Path.parent`  going down to a name and up to the containing directory;
* `Component.parent`  the components of the containing directory.
-/

namespace ParamThreading

/-- A component of a path, in the order in which components sort. -/
inductive Component where
  | root
  | current
  | parent
  | name (text : String)
deriving DecidableEq, Repr, Inhabited

namespace Component

def text : Component → String
  | root => "/"
  | current => "."
  | parent => ".."
  | name s => s

/-- The order of components: by sort first, names by their characters. -/
def compare : Component → Component → Ordering
  | .name a, .name b => Ord.compare a b
  | .name _, _ => .gt
  | _, .name _ => .lt
  | a, b => Ord.compare (rank a) (rank b)
where
  rank : Component → Nat
    | root => 0
    | current => 1
    | parent => 2
    | name _ => 3

def compareAll : List Component → List Component → Ordering
  | [], [] => .eq
  | [], _ :: _ => .lt
  | _ :: _, [] => .gt
  | a :: as, b :: bs => (compare a b).then (compareAll as bs)

/-- The components of the containing directory; nothing for a path that has none. -/
def parentOf (cs : List Component) : List Component :=
  if cs.getLast? = some root then [] else cs.dropLast

def joined (cs : List Component) : String :=
  "/".intercalate (cs.map text)

end Component

/-- A path as it was written. -/
structure Path where
  text : String
deriving DecidableEq, Repr, Inhabited

namespace Path

/-- The component that a segment stands for, apart from a leading dot. -/
def ofSegment (segment : List Char) : Option Component :=
  match segment with
  | [] => none
  | ['.'] => none
  | ['.', '.'] => some .parent
  | cs => some (.name (String.ofList cs))

def components (p : Path) : List Component :=
  match Cut.fields '/' p.text.toList with
  | [] => []
  | first :: rest =>
    let inner := rest.filterMap ofSegment
    match first with
    | [] => if rest.isEmpty then [] else .root :: inner
    | ['.'] => .current :: inner
    | cs => (ofSegment cs).toList ++ inner

/-- The same path up to spelling. -/
def same (a b : Path) : Bool :=
  a.components == b.components

def le (a b : Path) : Bool :=
  (Component.compareAll a.components b.components).isLE

def fileName? (p : Path) : Option String :=
  match p.components.getLast? with
  | some (.name s) => some s
  | _ => none

def segments (p : Path) : List String :=
  (Cut.fields '/' p.text.toList).map String.ofList

def join (p : Path) (name : String) : Path :=
  if p.text.isEmpty || p.text.toList.getLast? == some '/' then ⟨p.text ++ name⟩
  else ⟨p.text ++ "/" ++ name⟩

def ofPlace (names : List String) : Path :=
  ⟨"/" ++ "/".intercalate names⟩

def ofComponents (cs : List Component) : Path :=
  match cs with
  | .root :: rest => ⟨"/" ++ Component.joined rest⟩
  | cs => ⟨Component.joined cs⟩

/-- The containing directory; the empty path if there is none. -/
def parent (p : Path) : Path :=
  ofComponents (Component.parentOf p.components)

def withoutDot (p : Path) : Path :=
  match p.segments with
  | "." :: rest => ⟨"/".intercalate (rest.dropWhile fun s => s == "" || s == ".")⟩
  | _ => p

end Path

end ParamThreading
