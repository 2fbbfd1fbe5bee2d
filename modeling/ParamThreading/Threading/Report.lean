import ParamThreading.Threading.Frontier

/-!
# The report of a plan as JSON

It lists the parameter lists and the calls, each by file, line, column and offset.

* `Report.quoted`  a text as a JSON string;
* `Frontier.report`  the report of a frontier.
-/

namespace ParamThreading

namespace Report

def hexDigit (n : Nat) : Char :=
  if n < 10 then Char.ofNat ('0'.toNat + n) else Char.ofNat ('a'.toNat + (n - 10))

def escape (c : Char) : List Char :=
  match c with
  | '"' => ['\\', '"']
  | '\\' => ['\\', '\\']
  | '\n' => ['\\', 'n']
  | '\r' => ['\\', 'r']
  | '\t' => ['\\', 't']
  | '\x08' => ['\\', 'b']
  | '\x0c' => ['\\', 'f']
  | c =>
    if c.toNat < 0x20 then ['\\', 'u', '0', '0', hexDigit (c.toNat / 16), hexDigit (c.toNat % 16)]
    else [c]

def quoted (s : String) : String :=
  "\"" ++ String.ofList (s.toList.flatMap escape) ++ "\""

def edit (e : PlannedEdit) : String :=
  "    \x7b\n      \"file\": " ++ quoted e.file ++ ",\n      \"line\": " ++
    toString e.position.line ++
    ",\n      \"column\": " ++ toString e.position.column ++ ",\n      \"offset\": " ++
    toString e.offset ++ "\n    \x7d"

def edits (name : String) (es : List PlannedEdit) : String :=
  let items := if es.isEmpty then "[]" else "[\n" ++ ",\n".intercalate (es.map edit) ++ "\n  ]"
  "  \"" ++ name ++ "\": " ++ items

end Report

namespace Frontier

def report (f : Frontier) (program : Program) : String :=
  "\x7b\n" ++ Report.edits "signatures" (f.signatures.map (.ofAddress program)) ++ ",\n" ++
    Report.edits "call_sites" (f.callSites.map (.ofAddress program)) ++ "\n\x7d\n"

end Frontier

end ParamThreading
