import OrderedQuery.Value.Basic

/-!
# Sortable encoding of values

A value is encoded so that the bytewise order of encodings is the total order of values.
The first byte is the place of the value's type, so that types are ordered first.  Integers
and floats follow as eight bytes, most significant first, shifted so that the order is that
of unsigned numbers.  Texts and bytes follow with every zero byte written as `00 01`, and
end in `00 00`.

No encoding begins another one, so encodings can be put one after the other.  A descending
column holds the complements of all bytes.
-/

namespace OrderedQuery
namespace Key

open scoped CoreInstances

/-- A byte string in which a zero byte is followed by `01`, closed by two zero bytes. -/
def escape : Bytes → Bytes
  | [] => [0, 0]
  | b :: rest => if b = 0 then 0 :: 1 :: escape rest else b :: escape rest

/-- The encoding whose bytewise order is the total order of values. -/
def ascending : Value → Bytes
  | .null => [0]
  | .bool b => [1, if b then 1 else 0]
  | .int i => 2 :: Bytes.bigEndian 8 (i.toInt + 2 ^ (63 : Nat)).toNat
  | .float x => 3 :: Bytes.bigEndian 8 x.orderKey
  | .string s => 4 :: escape (utf8 s)
  | .bytes b => 5 :: escape b

/-- Complements a byte string that belongs to a descending column. -/
def oriented (descending : Bool) (b : Bytes) : Bytes :=
  if descending then Bytes.complement b else b

/-- The encoding of a value in a column of the given direction. -/
def encode (descending : Bool) (v : Value) : Bytes :=
  oriented descending (ascending v)

/-- The encodings of several values, one after the other; each comes with the direction of
its column. -/
def encodeAll (items : List (Value × Bool)) : Bytes :=
  items.flatMap fun (v, descending) => encode descending v

end Key
end OrderedQuery
