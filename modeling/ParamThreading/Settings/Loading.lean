import ParamThreading.Disk.Basic
import ParamThreading.Document.Format
import ParamThreading.Settings.Layer
import ParamThreading.Text.Utf8

/-!
# Loading settings

Settings come from a file that is named or found in the working directory, then from the
environment's variables.

* `Settings.fileOf`  the file that a name stands for, with its format;
* `Settings.load`  the settings.
-/

namespace ParamThreading

namespace Settings

def defaultNames : List String :=
  ["argthread.toml", "argthread.yaml", "argthread.json", ".argthread.toml"]

/-- The extension of a path; a dot at the beginning of a name begins none. -/
def extensionOf (p : Path) : String :=
  match p.fileName? with
  | none => ""
  | some name =>
    match Cut.cutLast? '.' name.toList with
    | some (_ :: _, extension) => String.ofList extension
    | _ => ""

/-- The file that a name stands for: itself, or with one of the extensions added. -/
def fileOf (d : Disk) (name : String) : Except SettingsFailure (Path × Document.Format) :=
  let path : Path := ⟨name⟩
  if d.isFile path then
    match Document.Format.ofExtension? (extensionOf path) with
    | some format => .ok (path, format)
    | none =>
      let absolute := if name.toList.head? == some '/' then path else (Path.ofPlace d.cwd).join name
      .error (.unknownFormat absolute)
  else
    let candidates := Document.Format.extensions.map fun (extension, format) =>
      ((⟨name ++ "." ++ extension⟩ : Path), format)
    match candidates.find? fun (p, _) => d.isFile p with
    | some found => .ok found
    | none => .error (.notFound name)

/-- A path as it is reached from the working directory. -/
def shownFrom (d : Disk) (p : Path) : String :=
  let absolute := if p.text.toList.head? == some '/' then p else (Path.ofPlace d.cwd).join p.text
  let base := (Path.ofPlace d.cwd).components
  let parts := absolute.components
  let common := ((base.zip parts).takeWhile fun (a, b) => a == b).length
  Component.joined ((base.drop common).map (fun _ => .parent) ++ parts.drop common)

/-- The text of some bytes without a byte order mark. -/
def textOf (content : ByteArray) : String :=
  let mark : ByteArray := ⟨#[0xef, 0xbb, 0xbf]⟩
  if content.extract 0 3 == mark then Utf8.decodeLossy (content.extract 3 content.size)
  else Utf8.decodeLossy content

def readFile (d : Disk) (name : String) : Except SettingsFailure Layer := do
  let (path, format) ← fileOf d name
  let content := match d.read path with
    | .ok content => content
    | .error _ => .empty
  match format.read (textOf content) with
  | .error .malformed => .error (.malformed ⟨shownFrom d path⟩ none)
  | .error (.located position) => .error (.malformed ⟨shownFrom d path⟩ (some position))
  | .ok fields => return Layer.cover [] (shownFrom d path) fields

/-- The settings of a named file, or of the first one found, and of the environment. -/
def load (d : Disk) (environment : List (String × String)) (explicit : Option String) :
    Except SettingsFailure Settings := do
  let found := explicit.or (defaultNames.find? fun name => (d.locate ⟨name⟩).isOk)
  let layer ← match found with
    | some name => readFile d name
    | none => .ok []
  (layer.coverEnvironment environment).settings

end Settings

end ParamThreading
