import OrderedQuery.CoreInstances

/-!
# Byte strings

Keys, stored values and raw column values are lists of bytes.  They are compared
bytewise, a proper beginning of a string coming before the string itself; this is the
order of `compare` on lists.
-/

namespace OrderedQuery

/-- A string of bytes. -/
abbrev Bytes := List UInt8

namespace Bytes

open scoped CoreInstances

/-- The last `width` base-256 digits of `n`, most significant first. -/
def bigEndian : Nat → Nat → Bytes
  | 0, _ => []
  | width + 1, n => UInt8.ofNat (n / 256 ^ width) :: bigEndian width n

/-- The last `width` base-256 digits of `n`, least significant first. -/
def littleEndian : Nat → Nat → Bytes
  | 0, _ => []
  | width + 1, n => UInt8.ofNat n :: littleEndian width (n / 256)

/-- The number whose base-256 digits are the bytes, most significant first. -/
def toNatBig (b : Bytes) : Nat :=
  b.foldl (fun n byte => 256 * n + byte.toNat) 0

/-- The number whose base-256 digits are the bytes, least significant first. -/
def toNatLittle : Bytes → Nat
  | [] => 0
  | byte :: rest => byte.toNat + 256 * toNatLittle rest

/-- Every byte complemented.  Complementing reverses the order of bytes. -/
def complement (b : Bytes) : Bytes :=
  b.map (~~~ ·)

/-- Two lower-case hexadecimal digits for a byte. -/
def hexByte (byte : UInt8) : String :=
  String.ofList [Nat.digitChar (byte.toNat / 16), Nat.digitChar (byte.toNat % 16)]

/-- Two lower-case hexadecimal digits for every byte. -/
def hex (b : Bytes) : String :=
  String.join (b.map hexByte)

end Bytes
end OrderedQuery
