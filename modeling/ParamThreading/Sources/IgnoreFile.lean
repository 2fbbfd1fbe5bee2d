import ParamThreading.Disk.Basic
import ParamThreading.Pattern.Glob
import ParamThreading.Text.Blank
import ParamThreading.Text.Lines
import ParamThreading.Text.Utf8

/-!
# Ignore files

An ignore file is a list of globs that exclude entries of the directory it stands in, or take them
in again. The file `.ignore` counts everywhere; `.gitignore` and `.git/info/exclude` count only
inside a repository, from the entry up to the directory that holds `.git`.

* `IgnoreRule`, `IgnoreRule.ofLine?`  one line of an ignore file;
* `Verdict`  what rules say about an entry; the last rule that matches decides;
* `IgnoreFile.verdict`  what all ignore files above an entry say about it, the nearest first.
-/

namespace ParamThreading

/-- What rules say about an entry. -/
inductive Verdict where
  | silent
  | ignored
  | kept
deriving DecidableEq, Repr, Inhabited

namespace Verdict

def or : Verdict → Verdict → Verdict
  | silent, v => v
  | v, _ => v

def first (vs : List Verdict) : Verdict :=
  vs.foldr or silent

end Verdict

structure IgnoreRule where
  pattern : Pattern UInt8
  /-- Takes entries in again. -/
  keeps : Bool
  onlyDirectories : Bool

namespace IgnoreRule

/-- The glob of a rule. Without a separator it matches at any depth, and `/**` at its end does not
match the directory itself. -/
def globOf (rooted : Bool) (body : List Char) : List Char :=
  let deep := !rooted && !body.contains '/' && body != ['*', '*']
  let glob := if deep then ['*', '*', '/'] ++ body else body
  if ['/', '*', '*'].isSuffixOf glob then glob ++ ['/', '*'] else glob

/-- The rule of a line; none for a comment, an empty line or a bad glob. -/
def ofLine? (line : List Char) : Option IgnoreRule :=
  if line.head? == some '#' then none
  else
    let line := if ['\\', ' '].isSuffixOf line then line
      else (line.reverse.dropWhile Blank.holds).reverse
    if line.isEmpty then none
    else
      let (keeps, rooted, body) := match line with
        | '\\' :: '!' :: _ => (false, false, line.tail)
        | '\\' :: '#' :: _ => (false, false, line.tail)
        | '!' :: '/' :: rest => (true, true, rest)
        | '!' :: rest => (true, false, rest)
        | '/' :: rest => (false, true, rest)
        | _ => (false, false, line)
      let onlyDirectories := body.getLast? == some '/'
      let body := if onlyDirectories then body.dropLast else body
      let body := if onlyDirectories && body.getLast? == some '\\' then body.dropLast else body
      match Glob.parse ⟨true, true⟩ (String.ofList (globOf rooted body)) with
      | .ok pattern => some ⟨pattern, keeps, onlyDirectories⟩
      | .error _ => none

end IgnoreRule

namespace IgnoreFile

def rules (text : String) : List IgnoreRule :=
  match Lines.of text.toList with
  | [] => []
  | first :: rest =>
    (first.dropWhile (· == '\ufeff') :: rest).filterMap IgnoreRule.ofLine?

/-- What rules say about a path relative to their directory. -/
def apply (rules : List IgnoreRule) (path : String) (isDirectory : Bool) : Verdict :=
  let decisive := rules.reverse.find? fun r =>
    (!r.onlyDirectories || isDirectory) && Glob.holds r.pattern path
  match decisive with
  | none => .silent
  | some r => if r.keeps then .kept else .ignored

/-- The text of an ignore file, up to the first line that is no text. -/
def textAt (d : Disk) (place : Place) : String :=
  match d.entry? place with
  | some (.file content) =>
    match Utf8.decode content with
    | .ok text => text
    | .error fault =>
      let good := (String.fromUTF8? (content.extract 0 fault.offset)).getD ""
      String.ofList (good.toList.reverse.dropWhile (· != '\n')).reverse
  | _ => ""

/-- What the ignore file of a name in a directory says about an entry below. -/
def verdictOf (d : Disk) (place : Place) (isDirectory : Bool) (name : List String) (dir : Place) :
    Verdict :=
  let path := "/".intercalate (place.drop dir.length)
  apply (rules (textAt d (dir ++ name))) path isDirectory

/-- The directories above an entry, the nearest first. -/
def above (place : Place) : List Place :=
  (List.range place.length).reverse.map place.take

def isRepository (d : Disk) (dir : Place) : Bool :=
  (d.entry? (dir ++ [".git"])).isSome

/-- The directories of the repository that an entry belongs to, the nearest first; none outside of
repositories. -/
def inRepository (d : Disk) (dirs : List Place) : List Place :=
  match dirs.dropWhile fun dir => !isRepository d dir with
  | [] => []
  | top :: _ => (dirs.takeWhile fun dir => !isRepository d dir) ++ [top]

/-- What the ignore files above an entry say about it. -/
def verdict (d : Disk) (place : Place) (isDirectory : Bool) : Verdict :=
  let dirs := above place
  let repository := inRepository d dirs
  let say (name : List String) (dirs : List Place) : Verdict :=
    Verdict.first (dirs.map (verdictOf d place isDirectory name))
  ((say [".ignore"] dirs).or (say [".gitignore"] repository)).or
    (say [".git", "info", "exclude"] repository)

end IgnoreFile

end ParamThreading
