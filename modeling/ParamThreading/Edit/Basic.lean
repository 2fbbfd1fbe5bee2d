import ParamThreading.Program.Basic

/-!
# Insertions into the files of a program

They refer to offsets of the text before all edits, so that later edits do not move earlier ones.

* `Insertion`, `Edits`  what is inserted where;
* `Edits.render`  the text of a file with its insertions.
-/

namespace ParamThreading

/-- The element that an insertion adds. -/
inductive Inserted where
  | parameter (name type : String)
  | argument (name : String)
deriving DecidableEq, Repr, Inhabited

structure Insertion where
  offset : Nat
  inserted : Inserted
  text : String
deriving DecidableEq, Repr, Inhabited

/-- Insertions with their files, in the order in which they were recorded. -/
structure Edits where
  entries : List (FileId × Insertion)
deriving DecidableEq, Repr, Inhabited

namespace Edits

def empty : Edits := ⟨[]⟩

def isEmpty (e : Edits) : Bool :=
  e.entries.isEmpty

def push (e : Edits) (file : FileId) (i : Insertion) : Edits :=
  ⟨e.entries ++ [(file, i)]⟩

/-- The insertions into a file, in the order in which they were recorded. -/
def insertions (e : Edits) (file : FileId) : List Insertion :=
  (e.entries.filter (·.1 == file)).map (·.2)

/-- The element that comes first at an offset: the one recorded last. -/
def leading? (e : Edits) (file : FileId) (offset : Nat) : Option Inserted :=
  ((e.insertions file).reverse.find? (·.offset == offset)).map (·.inserted)

/-- Insertions by offset; at one offset the one recorded last comes first. -/
def ordered (is : List Insertion) : List Insertion :=
  is.reverse.mergeSort fun a b => a.offset ≤ b.offset

/-- The text from an offset on, with insertions given by increasing offset. -/
def splice (source : String) : Nat → List Insertion → String
  | cursor, [] => Node.slice source cursor source.utf8ByteSize
  | cursor, i :: is => Node.slice source cursor i.offset ++ i.text ++ splice source i.offset is

def render (e : Edits) (program : Program) (file : FileId) : String :=
  splice (program.file file).text 0 (ordered (e.insertions file))

end Edits

end ParamThreading
