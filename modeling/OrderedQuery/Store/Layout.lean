import OrderedQuery.Store.Range
import OrderedQuery.Text.Utf8

/-!
# Many tables in one ordered map

All tables live in one map.  A key of a table is stored after the name of the table and a
zero byte.  As long as names hold no zero byte, the keys of a table lie together and keep
their order, and the keys of different tables are different.
-/

namespace OrderedQuery
namespace Layout

/-- The stored form of a key. -/
def storedKey (table : String) (key : Bytes) : Bytes :=
  utf8 table ++ 0 :: key

/-- The table and the key of a stored key, which is split at its first zero byte. -/
def splitKey? (stored : Bytes) : Option (String × Bytes) :=
  match stored.dropWhile (· != 0) with
  | [] => none
  | _ :: key =>
      match Utf8.decode (stored.takeWhile (· != 0)) with
      | .ok table => some (table, key)
      | .error _ => none

/-- The first stored key a table can have. -/
def tableStart (table : String) : Bytes :=
  storedKey table []

/-- The first byte string after all stored keys of a table. -/
def tableEnd (table : String) : Bytes :=
  utf8 table ++ [1]

/-- A lower bound on stored keys. -/
def storedLow (table : String) : Bound → Bound
  | .unbounded => .included (tableStart table)
  | .included k => .included (storedKey table k)
  | .excluded k => .excluded (storedKey table k)

/-- An upper bound on stored keys. -/
def storedHigh (table : String) : Bound → Bound
  | .unbounded => .excluded (tableEnd table)
  | .included k => .included (storedKey table k)
  | .excluded k => .excluded (storedKey table k)

/-- The range of stored keys that a scan visits.  A scan that resumes after a key has that
key, excluded, in place of the bound it starts from. -/
def storedRange (table : String) (range : KeyRange) (resume : Option Bytes)
    (direction : Direction) : KeyRange :=
  let low := storedLow table range.low
  let high := storedHigh table range.high
  match resume, direction with
  | none, _ => ⟨low, high⟩
  | some k, .forward => ⟨.excluded (storedKey table k), high⟩
  | some k, .backward => ⟨low, .excluded (storedKey table k)⟩

end Layout
end OrderedQuery
