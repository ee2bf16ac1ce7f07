import OrderedQuery.Index.Codec
import OrderedQuery.Index.Draft

/-!
# Positions within a definition

A definition counts its declared columns and places its coordinates by numbers of its own, and
nothing in its form makes them fit its list of columns.  The operations of this module are those
of a definition, and the checks of a draft, with every position and every difference checked: they
have no answer where a position lies beyond a list or a machine word of 64 bits, or where a
difference is below zero.  The position behind the coordinates of a draft has a fault of its own.

Lists are held in memory, so their lengths are machine words, and one more than a length is one
as well.
-/

namespace OrderedQuery

open scoped CoreInstances

/-- The part of a list between two positions, which have to be in order and within it. -/
def slice? {α : Type} (xs : List α) (start stop : Nat) : Option (List α) :=
  if start ≤ stop ∧ stop ≤ xs.length then some ((xs.take stop).drop start) else none

/-- A number that has to fit in a machine word. -/
def word? (n : Nat) : Option Nat :=
  if n < 2 ^ (64 : Nat) then some n else none

/-- A difference that must not be below zero. -/
def difference? (a b : Nat) : Option Nat :=
  if b ≤ a then some (a - b) else none

/-- Reads one value for every direction, from a position of the key on, and tells the position
behind the last one. -/
def Key.decodeFrom? (key : Bytes) :
    List Bool → Nat → Option (Except Fault (List Value × Nat))
  | [], offset => some (.ok ([], offset))
  | descending :: more, offset => do
      let unread ← slice? key offset key.length
      match decode descending unread with
      | .error fault => some (.error fault)
      | .ok (v, left) =>
          let used ← difference? unread.length left.length
          let others ← decodeFrom? key more (offset + used)
          some (others.map fun (vs, last) => (v :: vs, last))

namespace Index

/-- The declared columns. -/
def keyColumns? (ix : Index) : Option (List Column) :=
  slice? ix.columns 0 ix.declared

/-- The columns that come from the hierarchical key. -/
def hierarchicalColumns? (ix : Index) : Option (List Column) :=
  slice? ix.columns ix.declared ix.columns.length

/-- The number of columns of a stored key. -/
def physicalCount? (ix : Index) : Option Nat :=
  match ix.spatial with
  | none => some ix.columns.length
  | some g => (difference? ix.columns.length g.dimensions).map (· + 1)

/-- Whether each column of a stored key ascends. -/
def physicalDirections? (ix : Index) : Option (List Bool) :=
  match ix.spatial with
  | none => some (ix.columns.map Column.ascending)
  | some g => do
      let before ← slice? ix.columns 0 g.first
      let after ← word? g.after
      let behind ← slice? ix.columns after ix.columns.length
      some (before.map Column.ascending ++ true :: behind.map Column.ascending)

/-- The encoding of leading columns whose types have been checked. -/
def encodeChecked? (ix : Index) (values : List Value) : Option (Except IndexError Bytes) :=
  match ix.spatial with
  | none => some (.ok (encodeColumns ix.columns values))
  | some g => do
      let after ← word? g.after
      if g.first < values.length ∧ values.length < after then
        some (.error (.splitCoordinates ix.name values.length))
      else
        let before := encodeColumns (ix.columns.take g.first) (values.take g.first)
        if values.length < after then some (.ok before)
        else do
          let group ← slice? values g.first after
          some do
            let ordinal ← ix.ordinal group
            .ok (before ++ Key.encode false ordinal ++
              encodeColumns (ix.columns.drop after) (values.drop after))

/-- The common beginning of the keys whose first columns hold the given values. -/
def encodeLeading? (ix : Index) (values : List Value) : Option (Except IndexError Bytes) :=
  if ix.columns.length < values.length then
    some (.error (.tooManyValues ix.name ix.columns.length values.length))
  else
    match checkTypes ix.columns values with
    | .error e => some (.error e)
    | .ok () => ix.encodeChecked? values

/-- The key of a row. -/
def encodeRow? (ix : Index) (values : List Value) : Option (Except IndexError Bytes) :=
  if values.length ≠ ix.columns.length then
    some (.error (.wrongKeyCount ix.name ix.columns.length values.length))
  else ix.encodeLeading? values

/-- The row stored under a key.  Room for the stored columns is made before they are read. -/
def decodeRow? (ix : Index) (key : Bytes) : Option (Except IndexError (List Value)) := do
  let _ ← ix.physicalCount?
  let directions ← ix.physicalDirections?
  match ← Key.decodeFrom? key (directions.map (!·)) 0 with
  | .error fault => some (.error (.malformed fault))
  | .ok (stored, offset) =>
      if offset ≠ key.length then
        let trailing ← difference? key.length offset
        some (.error (.trailingBytes trailing ix.name))
      else
        match ix.spatial with
        | none => some (.ok stored)
        | some g => some (ix.expandOrdinal g stored)

/-- Checks the coordinate group of a draft. -/
def Draft.checkGroup? (d : Draft) (g : CoordinateGroup) : Option (Except IndexError Unit) :=
  if g.dimensions ≠ 2 then some (.error (.badDraft d.name (.wrongDimensions g.dimensions)))
  else if 2 ^ (64 : Nat) ≤ g.after then some (.error .positionOverflow)
  else if d.declaredCount < g.after then
    some (.error (.badDraft d.name
      (.coordinatesBeyondDeclared g.first g.after d.declaredCount)))
  else do
    let coordinates ← slice? d.columns g.first g.after
    match coordinates.find? fun c => decide (c.type ≠ .int) || !c.ascending with
    | some c => some (.error (.badDraft d.name (.badCoordinate c.name)))
    | none => some (.ok ())

/-- Checks a draft and turns it into a definition. -/
def Draft.build? (d : Draft) : Option (Except IndexError Index) :=
  let declared := d.declaredCount
  if declared = 0 then some (.error (.badDraft d.name .noDeclaredColumn))
  else do
    let later ← slice? d.columns declared d.columns.length
    if later.any fun c => decide (c.kind = .declared) then
      some (.error (.badDraft d.name .declaredAfterHierarchical))
    else
      match d.duplicate? with
      | some name => some (.error (.badDraft d.name (.duplicateColumn name)))
      | none =>
          let index : Index := ⟨d.table, d.name, d.columns, declared, d.unique, d.spatial⟩
          match d.spatial with
          | none => some (.ok index)
          | some g => (d.checkGroup? g).map fun checked => checked.map fun _ => index

end Index
end OrderedQuery
