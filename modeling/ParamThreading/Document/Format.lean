import ParamThreading.Document.Ini
import ParamThreading.Document.Json
import ParamThreading.Document.Toml
import ParamThreading.Document.Yaml
import ParamThreading.Text.LineIndex

/-!
# The formats of documents

Formats are told apart by the extension of the file's name.

* `Document.Format.ofExtension?`  the format of an extension;
* `Document.Format.read`  the fields of a document, which has to be a table.
-/

namespace ParamThreading

namespace Document

inductive Format where
  | toml
  | json
  | yaml
  | ini
deriving DecidableEq, Repr, Inhabited

/-- What is wrong with a document. -/
inductive Fault where
  /-- At a line and a column, both counted from one. -/
  | located (position : LineColumn)
  | malformed
deriving DecidableEq, Repr, Inhabited

def lineColumn (cs : List Char) : LineColumn :=
  let column := (cs.reverse.takeWhile (· != '\n')).length
  ⟨cs.count '\n' + 1, column + 1⟩

namespace Format

def extensions : List (String × Format) :=
  [("toml", toml), ("json", json), ("yaml", yaml), ("yml", yaml), ("ini", ini), ("json5", json)]

def ofExtension? (extension : String) : Option Format :=
  extensions.lookup extension

def fieldsOf (v : Option Value) : Except Fault (List (String × Value)) :=
  match v with
  | some (.table fields) => .ok fields
  | _ => .error .malformed

def read (f : Format) (text : String) : Except Fault (List (String × Value)) :=
  match f with
  | toml => (Toml.parse text).mapError fun offset => .located (lineColumn (text.toList.take offset))
  | json => fieldsOf (Json.parse text)
  | yaml => fieldsOf (Yaml.parse text)
  | ini => fieldsOf (Ini.parse text)

end Format

end Document

end ParamThreading
