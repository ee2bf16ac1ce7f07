import OrderedQuery.Index.Basic
import OrderedQuery.Index.Error
import OrderedQuery.Key.Encoding

/-!
# Keys of an index

A row of an index is stored under the encodings of its columns, one after the other, each
in the direction of its column.  The coordinates of a spatial index are replaced by their
ordinal, or by null when all of them are null.

`Index.encodeLeading` encodes any number of leading columns, `Index.encodeRow` all of them,
and `Index.decodeRow` reads a full key back.
-/

namespace OrderedQuery
namespace Index

/-- Checks values against the types of the columns they stand in. -/
def checkTypes : List Column → List Value → Except IndexError Unit
  | c :: columns, v :: values =>
      if v.conforms c.type then checkTypes columns values
      else .error (.mismatch (.ofValue c.type v))
  | _, _ => .ok ()

/-- The encodings of values in the columns they stand in. -/
def encodeColumns (columns : List Column) (values : List Value) : Bytes :=
  Key.encodeAll ((values.zip columns).map fun (v, c) => (v, !c.ascending))

/-- The integers of a coordinate group, none of which may be null. -/
def coordinates (ix : Index) : List Value → Except IndexError (List Int64)
  | [] => .ok []
  | v :: rest =>
      match v.asInt? with
      | none => .error (.partlyNull ix.name)
      | some i => (coordinates ix rest).map (i :: ·)

/-- The value stored for a coordinate group. -/
def ordinal (ix : Index) (group : List Value) : Except IndexError Value :=
  if group.all Value.isNull then .ok .null
  else do
    let point ← ix.coordinates group
    let space ← (Space.ofDimensions group.length).mapError .outsideSpace
    let ordinal ← (space.shuffle point).mapError .outsideSpace
    .ok (.int ordinal)

/-- The encoding of leading columns whose types have been checked. -/
def encodeChecked (ix : Index) (values : List Value) : Except IndexError Bytes :=
  match ix.spatial with
  | none => .ok (encodeColumns ix.columns values)
  | some g =>
      if g.first < values.length ∧ values.length < g.after then
        .error (.splitCoordinates ix.name values.length)
      else
        let before := encodeColumns (ix.columns.take g.first) (values.take g.first)
        if values.length < g.after then .ok before
        else do
          let ordinal ← ix.ordinal ((values.drop g.first).take g.dimensions)
          .ok (before ++ Key.encode false ordinal ++
            encodeColumns (ix.columns.drop g.after) (values.drop g.after))

/-- The common beginning of the keys whose first columns hold the given values. -/
def encodeLeading (ix : Index) (values : List Value) : Except IndexError Bytes :=
  if ix.columns.length < values.length then
    .error (.tooManyValues ix.name ix.columns.length values.length)
  else do
    checkTypes ix.columns values
    ix.encodeChecked values

/-- The key of a row. -/
def encodeRow (ix : Index) (values : List Value) : Except IndexError Bytes :=
  if values.length ≠ ix.columns.length then
    .error (.wrongKeyCount ix.name ix.columns.length values.length)
  else ix.encodeLeading values

/-- Replaces the ordinal of a stored key by the coordinates of its point. -/
def expandOrdinal (ix : Index) (g : CoordinateGroup) (stored : List Value) :
    Except IndexError (List Value) :=
  let before := stored.take g.first
  let after := stored.drop (g.first + 1)
  match stored[g.first]? with
  | some (.int ordinal) => do
      let space ← (Space.ofDimensions g.dimensions).mapError .outsideSpace
      .ok (before ++ (space.unshuffle ordinal).map .int ++ after)
  | some .null => .ok (before ++ List.replicate g.dimensions .null ++ after)
  | found => .error (.badOrdinal ix.name found)

/-- The row stored under a key. -/
def decodeRow (ix : Index) (key : Bytes) : Except IndexError (List Value) := do
  let (stored, rest) ←
    (Key.decodeAll (ix.physicalDirections.map (!·)) key).mapError .malformed
  if rest.isEmpty then
    match ix.spatial with
    | none => .ok stored
    | some g => ix.expandOrdinal g stored
  else .error (.trailingBytes rest.length ix.name)

end Index
end OrderedQuery
