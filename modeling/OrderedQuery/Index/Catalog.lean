import OrderedQuery.Index.Basic
import OrderedQuery.Index.Error

/-!
# Catalog bytes of a definition

A definition is stored as its fields in order.  Numbers are written with as few bytes as
they need: one byte below 251, else a byte that gives the width and the number itself,
least significant byte first.  Texts and lists are preceded by their length, optional parts
by a byte that tells whether they are there.

Reading accepts numbers that are written wider than necessary, and ignores what follows
the definition.  It checks only that the bytes have this form, not that a draft with these
fields could be built.
-/

namespace OrderedQuery
namespace Catalog

open scoped CoreInstances

/-- A reader takes a value off the front of a byte string, if the bytes have its form. -/
abbrev Reader (α : Type) := Bytes → Option (α × Bytes)

/-- The bytes of a number below `2 ^ 64`. -/
def writeNat (n : Nat) : Bytes :=
  if n < 251 then [UInt8.ofNat n]
  else if n < 2 ^ (16 : Nat) then 251 :: Bytes.littleEndian 2 n
  else if n < 2 ^ (32 : Nat) then 252 :: Bytes.littleEndian 4 n
  else 253 :: Bytes.littleEndian 8 n

/-- Takes a number of the given width. -/
def readFixed (width : Nat) : Reader Nat := fun b =>
  if b.length < width then none
  else some (Bytes.toNatLittle (b.take width), b.drop width)

/-- Takes a number that is at most `widest` bytes wide. -/
def readNat (widest : Nat) : Reader Nat
  | [] => none
  | b :: rest =>
      let width := match b.toNat with
        | 251 => 2
        | 252 => 4
        | 253 => 8
        | _ => 0
      if b.toNat < 251 then some (b.toNat, rest)
      else if 0 < width ∧ width ≤ widest then readFixed width rest
      else none

/-- The byte of a truth value. -/
def writeBool (b : Bool) : Bytes := [if b then 1 else 0]

/-- Takes a truth value. -/
def readBool : Reader Bool
  | [] => none
  | b :: rest => if b = 0 then some (false, rest) else if b = 1 then some (true, rest) else none

/-- The length of a text and its bytes. -/
def writeText (s : String) : Bytes :=
  writeNat (utf8 s).length ++ utf8 s

/-- Takes a text. -/
def readText : Reader String := fun b => do
  let (length, rest) ← readNat 8 b
  if rest.length < length then none
  else match Utf8.decode (rest.take length) with
    | .ok s => some (s, rest.drop length)
    | .error _ => none

/-- The number of a type. -/
def typeNumber : ValueType → Nat
  | .bool => 0
  | .int => 1
  | .float => 2
  | .string => 3
  | .bytes => 4

/-- Takes a type. -/
def readType : Reader ValueType := fun b => do
  let (n, rest) ← readNat 4 b
  match n with
  | 0 => some (.bool, rest)
  | 1 => some (.int, rest)
  | 2 => some (.float, rest)
  | 3 => some (.string, rest)
  | 4 => some (.bytes, rest)
  | _ => none

/-- The number of a kind of columns. -/
def kindNumber : ColumnKind → Nat
  | .declared => 0
  | .hierarchical => 1

/-- Takes a kind of columns. -/
def readKind : Reader ColumnKind := fun b => do
  let (n, rest) ← readNat 4 b
  match n with
  | 0 => some (.declared, rest)
  | 1 => some (.hierarchical, rest)
  | _ => none

/-- The bytes of a column. -/
def writeColumn (c : Column) : Bytes :=
  writeText c.name ++ writeNat (typeNumber c.type) ++ writeBool c.ascending ++
    writeNat (kindNumber c.kind)

/-- Takes a column. -/
def readColumn : Reader Column := fun b => do
  let (name, b) ← readText b
  let (type, b) ← readType b
  let (ascending, b) ← readBool b
  let (kind, b) ← readKind b
  some (⟨name, type, ascending, kind⟩, b)

/-- Takes `n` values in a row. -/
def readMany {α : Type} (read : Reader α) : Nat → Reader (List α)
  | 0, b => some ([], b)
  | n + 1, b => do
      let (x, b) ← read b
      let (xs, b) ← readMany read n b
      some (x :: xs, b)

/-- The bytes of an optional coordinate group. -/
def writeGroup : Option CoordinateGroup → Bytes
  | none => [0]
  | some g => 1 :: (writeNat g.first ++ writeNat g.dimensions)

/-- Takes an optional coordinate group. -/
def readGroup : Reader (Option CoordinateGroup)
  | [] => none
  | b :: rest =>
      if b = 0 then some (none, rest)
      else if b = 1 then do
        let (first, rest) ← readNat 8 rest
        let (dimensions, rest) ← readNat 8 rest
        some (some ⟨first, dimensions⟩, rest)
      else none

end Catalog

namespace Index

/-- The bytes under which a catalog keeps a definition. -/
def toBytes (ix : Index) : Bytes :=
  Catalog.writeText ix.table ++ Catalog.writeText ix.name ++
    (Catalog.writeNat ix.columns.length ++ ix.columns.flatMap Catalog.writeColumn) ++
    Catalog.writeNat ix.declared ++ Catalog.writeBool ix.unique ++
    Catalog.writeGroup ix.spatial

/-- Takes a definition off the front of catalog bytes. -/
def read : Catalog.Reader Index := fun b => do
  let (table, b) ← Catalog.readText b
  let (name, b) ← Catalog.readText b
  let (count, b) ← Catalog.readNat 8 b
  let (columns, b) ← Catalog.readMany Catalog.readColumn count b
  let (declared, b) ← Catalog.readNat 8 b
  let (unique, b) ← Catalog.readBool b
  let (spatial, b) ← Catalog.readGroup b
  some (⟨table, name, columns, declared, unique, spatial⟩, b)

/-- The definition that catalog bytes begin with. -/
def ofBytes (b : Bytes) : Except IndexError Index :=
  match read b with
  | some (ix, _) => .ok ix
  | none => .error .badCatalogEntry

end Index
end OrderedQuery
