import OrderedQuery.Key.Encoding
import OrderedQuery.Text.Quoted

/-!
# Reading sortable encodings back

`Key.decode` reads one value from the front of a byte string and returns the bytes that
follow it.  It accepts a little more than `Key.encode` writes: any byte but zero is read as
a true boolean, and every word in the range of NaNs is read as a float.
-/

namespace OrderedQuery
namespace Key

open scoped CoreInstances

/-- The part of an encoding that was being read. -/
inductive Part where
  | tag
  | bool
  | int
  | float
  | text
  deriving DecidableEq, Repr

/-- Why bytes are no encoding. -/
inductive Fault where
  /-- The input ends inside the given part. -/
  | truncated (part : Part)
  /-- No type has this tag. -/
  | unknownTag (tag : UInt8)
  /-- A zero byte is followed by neither `00` nor `01`. -/
  | badEscape (b : UInt8)
  /-- The bytes of a text are no text. -/
  | badText (fault : Utf8.Fault)
  deriving DecidableEq, Repr

/-- The name of a part in reports. -/
def Part.name : Part → String
  | tag => "type tag"
  | bool => "bool"
  | int => "int"
  | float => "float"
  | text => "escaped bytes"

/-- The report of a fault. -/
def Fault.message : Fault → String
  | truncated part => s!"encoding error: unexpected end of input reading {part.name}"
  | unknownTag tag =>
      s!"encoding error: unknown sortable type tag: 0x{hexDigits tag.toNat}"
  | badEscape b => s!"encoding error: invalid escape sequence: 0x00 0x{Bytes.hexByte b}"
  | badText fault => s!"encoding error: invalid UTF-8: {fault.message}"

/-- Splits off an eight-byte word. -/
def word (part : Part) (b : Bytes) : Except Fault (Nat × Bytes) :=
  if b.length < 8 then .error (.truncated part)
  else .ok (Bytes.toNatBig (b.take 8), b.drop 8)

/-- Undoes `escape`, and returns the bytes after the closing zeros. -/
def unescape : Bytes → Except Fault (Bytes × Bytes)
  | [] => .error (.truncated .text)
  | [_] => .error (.truncated .text)
  | b :: c :: rest =>
      if b = 0 then
        if c = 0 then .ok ([], rest)
        else if c = 1 then (unescape rest).map fun (out, rest) => (0 :: out, rest)
        else .error (.badEscape c)
      else (unescape (c :: rest)).map fun (out, rest) => (b :: out, rest)

/-- Reads an ascending encoding from the front of a byte string. -/
def decodeAscending : Bytes → Except Fault (Value × Bytes)
  | [] => .error (.truncated .tag)
  | tag :: rest =>
      match tag.toNat with
      | 0 => .ok (.null, rest)
      | 1 =>
          match rest with
          | [] => .error (.truncated .bool)
          | b :: rest => .ok (.bool (b != 0), rest)
      | 2 => (word .int rest).map fun (n, rest) => (.int (.ofInt (n - 2 ^ (63 : Nat))), rest)
      | 3 => (word .float rest).map fun (n, rest) => (.float (.ofOrderKey n), rest)
      | 4 => do
          let (raw, rest) ← unescape rest
          match Utf8.decode raw with
          | .ok s => .ok (.string s, rest)
          | .error fault => .error (.badText fault)
      | 5 => (unescape rest).map fun (raw, rest) => (.bytes raw, rest)
      | _ => .error (.unknownTag tag)

/-- Reads the encoding of a value in a column of the given direction from the front of a
byte string. -/
def decode (descending : Bool) (b : Bytes) : Except Fault (Value × Bytes) :=
  (decodeAscending (oriented descending b)).map fun (v, rest) =>
    (v, oriented descending rest)

/-- Reads one value for every direction, each from where the last one ended. -/
def decodeAll : List Bool → Bytes → Except Fault (List Value × Bytes)
  | [], b => .ok ([], b)
  | descending :: more, b => do
      let (v, rest) ← decode descending b
      let (vs, rest) ← decodeAll more rest
      .ok (v :: vs, rest)

end Key
end OrderedQuery
