import ParamThreading.Document.Value
import ParamThreading.Text.Blank
import ParamThreading.Text.Lines

/-!
# Documents of sections, keys and values

A key and its value stand on a line of their own.

* `Document.Ini.parse`  the table of a text, in which sections are tables, or nothing if a line has
  no value.
-/

namespace ParamThreading

namespace Document.Ini

def unquoted (cs : List Char) : List Char :=
  match cs, cs.getLast? with
  | q :: rest, some r =>
    if (q = '"' || q = '\x27') && r = q && !rest.isEmpty then rest.dropLast else cs
  | _, _ => cs

/-- A key and its value, separated by an equals sign or a colon. -/
def property? (line : List Char) : Option (String × Value) :=
  let key := line.takeWhile fun c => c != '=' && c != ':'
  match line.drop key.length with
  | [] => none
  | _ :: value =>
    let key := Blank.trim key
    if key.isEmpty then none
    else some (String.ofList key, .text (String.ofList (unquoted (Blank.trim value))))

/-- Reads lines with a section open; no section at the beginning. -/
def lines? : Option String → List (String × Value) → List (List Char) →
    Option (List (String × Value))
  | _, fields, [] => some fields
  | here, fields, line :: rest =>
    match Blank.trim line with
    | [] => lines? here fields rest
    | ';' :: _ => lines? here fields rest
    | '#' :: _ => lines? here fields rest
    | '[' :: inner =>
      match Cut.cut? ']' inner with
      | none => none
      | some (name, _) =>
        let name := String.ofList (Blank.trim name)
        let fields :=
          if (Value.lookup? fields name).isSome then fields else fields ++ [(name, .table [])]
        lines? (some name) fields rest
    | line =>
      match property? line with
      | none => none
      | some (key, v) =>
        match here with
        | none => lines? here (Value.insert fields key v) rest
        | some name =>
          let inner := match Value.lookup? fields name with
            | some (.table inner) => inner
            | _ => []
          lines? here (Value.insert fields name (.table (Value.insert inner key v))) rest

def parse (text : String) : Option Value :=
  (lines? none [] (Lines.of text.toList)).map .table

end Document.Ini

end ParamThreading
