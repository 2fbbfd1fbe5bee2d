/-!
# The encoding of texts as bytes

* `Utf8.decode`  the text of some bytes, or the first place where they are none;
* `Utf8.decodeLossy`  the text of some bytes with a mark in the place of each bad sequence.
-/

namespace ParamThreading

namespace Utf8

/-- Why bytes are not a text: the offset of the first bad sequence, and its length unless the bytes
end in the middle of it. -/
structure Fault where
  offset : Nat
  length : Option Nat
deriving DecidableEq, Repr, Inhabited

namespace Fault

def message (f : Fault) : String :=
  match f.length with
  | some n =>
    "invalid utf-8 sequence of " ++ toString n ++ " bytes from index " ++ toString f.offset
  | none => "incomplete utf-8 byte sequence from index " ++ toString f.offset

end Fault

/-- The bytes that may come next in a sequence, as bounds for each of them; nothing for a byte that
begins no sequence. -/
def continuations (first : UInt8) : Option (List (UInt8 × UInt8)) :=
  let tail : UInt8 × UInt8 := (0x80, 0xbf)
  if first < 0x80 then some []
  else if first < 0xc2 then none
  else if first < 0xe0 then some [tail]
  else if first = 0xe0 then some [(0xa0, 0xbf), tail]
  else if first = 0xed then some [(0x80, 0x9f), tail]
  else if first < 0xf0 then some [tail, tail]
  else if first = 0xf0 then some [(0x90, 0xbf), tail, tail]
  else if first < 0xf4 then some [tail, tail, tail]
  else if first = 0xf4 then some [(0x80, 0x8f), tail, tail]
  else none

/-- How many bytes keep within their bounds, and whether the bytes end before the bounds do. -/
def agreement : List (UInt8 × UInt8) → List UInt8 → Nat × Bool
  | [], _ => (0, false)
  | _ :: _, [] => (0, true)
  | (low, high) :: bounds, b :: bs =>
    if low ≤ b && b ≤ high then
      let (n, short) := agreement bounds bs
      (n + 1, short)
    else (0, false)

/-- The first bad sequence from an offset on. -/
def faultFrom : Nat → Nat → List UInt8 → Option Fault
  | 0, _, _ => none
  | _ + 1, _, [] => none
  | n + 1, offset, b :: bs =>
    match continuations b with
    | none => some ⟨offset, some 1⟩
    | some bounds =>
      let (k, short) := agreement bounds bs
      if short then some ⟨offset, none⟩
      else if k < bounds.length then some ⟨offset, some (k + 1)⟩
      else faultFrom n (offset + k + 1) (bs.drop k)

def fault? (bytes : List UInt8) : Option Fault :=
  faultFrom (bytes.length + 1) 0 bytes

def decode (bytes : ByteArray) : Except Fault String :=
  match String.fromUTF8? bytes with
  | some text => .ok text
  | none => .error ((fault? bytes.toList).getD ⟨0, some 1⟩)

/-- The text of some bytes, with a replacement character for each bad sequence. Each of them takes
at least one byte. -/
def lossyFrom : Nat → ByteArray → String
  | 0, _ => ""
  | n + 1, bytes =>
    match decode bytes with
    | .ok text => text
    | .error f =>
      let good := (String.fromUTF8? (bytes.extract 0 f.offset)).getD ""
      let after := match f.length with
        | some k => lossyFrom n (bytes.extract (f.offset + k) bytes.size)
        | none => ""
      good ++ "\ufffd" ++ after

def decodeLossy (bytes : ByteArray) : String :=
  lossyFrom (bytes.size + 1) bytes

end Utf8

end ParamThreading
