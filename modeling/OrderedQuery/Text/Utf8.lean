import OrderedQuery.Bytes

/-!
# UTF-8 texts

A text and its bytes are in one-to-one correspondence.  Bytes that are no text are
reported by the place of the first bad sequence and by the number of its bytes that
could still have begun a valid one.

The places are found by a small automaton.  Between two characters any lead byte is
welcome; inside a character the automaton knows how many bytes are still missing and
the range of the next one, which is narrower than `80..BF` only after the lead bytes
`E0`, `ED`, `F0` and `F4`.
-/

namespace OrderedQuery

/-- The bytes of a text. -/
def utf8 (s : String) : Bytes :=
  s.toByteArray.data.toList

namespace Utf8

/-- Why a byte string is no text. -/
inductive Fault where
  /-- The `length` bytes from `start` on cannot belong to any character. -/
  | malformed (length start : Nat)
  /-- The input ends inside the character that begins at `start`. -/
  | incomplete (start : Nat)
  deriving DecidableEq, Repr

/-- What is still expected of the character being read. -/
structure Pending where
  /-- Bytes of the character read so far. -/
  seen : Nat
  /-- Bytes that must follow. -/
  missing : Nat
  /-- Least value of the next byte. -/
  low : UInt8
  /-- Greatest value of the next byte. -/
  high : UInt8
  deriving DecidableEq, Repr

/-- The expectation a lead byte of several-byte characters sets up, or `none` for a byte
that begins no such character. -/
def Pending.ofLead (b : UInt8) : Option Pending :=
  if 0xC2 ≤ b ∧ b ≤ 0xDF then some ⟨1, 1, 0x80, 0xBF⟩
  else if b = 0xE0 then some ⟨1, 2, 0xA0, 0xBF⟩
  else if b = 0xED then some ⟨1, 2, 0x80, 0x9F⟩
  else if 0xE1 ≤ b ∧ b ≤ 0xEF then some ⟨1, 2, 0x80, 0xBF⟩
  else if b = 0xF0 then some ⟨1, 3, 0x90, 0xBF⟩
  else if 0xF1 ≤ b ∧ b ≤ 0xF3 then some ⟨1, 3, 0x80, 0xBF⟩
  else if b = 0xF4 then some ⟨1, 3, 0x80, 0x8F⟩
  else none

/-- The expectation after one more byte of the right range. -/
def Pending.advance (p : Pending) : Option Pending :=
  if p.missing ≤ 1 then none else some ⟨p.seen + 1, p.missing - 1, 0x80, 0xBF⟩

/-- The first fault of the bytes that start at `place`, the automaton being in the given
state. -/
def faultFrom (place : Nat) : Option Pending → Bytes → Option Fault
  | none, [] => none
  | some p, [] => some (.incomplete (place - p.seen))
  | none, b :: rest =>
      if b < 0x80 then faultFrom (place + 1) none rest
      else match Pending.ofLead b with
        | some p => faultFrom (place + 1) (some p) rest
        | none => some (.malformed 1 place)
  | some p, b :: rest =>
      if p.low ≤ b ∧ b ≤ p.high then faultFrom (place + 1) p.advance rest
      else some (.malformed p.seen (place - p.seen))

/-- The first fault of a byte string. -/
def fault? (b : Bytes) : Option Fault :=
  faultFrom 0 none b

/-- Reads bytes as a text. -/
def decode (b : Bytes) : Except Fault String :=
  match String.fromUTF8? ⟨b.toArray⟩ with
  | some s => .ok s
  | none => .error ((fault? b).getD (.incomplete b.length))

/-- The report of a fault. -/
def Fault.message : Fault → String
  | .malformed length start =>
      s!"invalid utf-8 sequence of {length} bytes from index {start}"
  | .incomplete start => s!"incomplete utf-8 byte sequence from index {start}"

end Utf8
end OrderedQuery
