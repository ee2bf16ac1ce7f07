import OrderedQuery.Value.Basic

/-!
# Index definitions

An index keeps the rows of a table in the order of a key.  Its columns are listed in key
order: first the declared ones, then those inherited from the hierarchical key of the
table.  In a spatial index a group of coordinate columns is stored as one ordinal, so a
stored key has fewer columns than the rows it stands for.
-/

namespace OrderedQuery

/-- Where a column of an index comes from. -/
inductive ColumnKind where
  /-- The definition declares it. -/
  | declared
  /-- It belongs to the hierarchical key of the table. -/
  | hierarchical
  deriving DecidableEq, Repr

/-- A column of an index. -/
structure Column where
  name : String
  type : ValueType
  ascending : Bool
  kind : ColumnKind
  deriving DecidableEq, Repr

/-- The group of coordinate columns of a spatial index. -/
structure CoordinateGroup where
  /-- Position of the first coordinate among the columns. -/
  first : Nat
  /-- Number of coordinates. -/
  dimensions : Nat
  deriving DecidableEq, Repr

/-- Position right after the last coordinate. -/
def CoordinateGroup.after (g : CoordinateGroup) : Nat :=
  g.first + g.dimensions

/-- An index definition. -/
structure Index where
  table : String
  name : String
  columns : List Column
  /-- The number of leading columns that are declared. -/
  declared : Nat
  unique : Bool
  spatial : Option CoordinateGroup
  deriving DecidableEq, Repr

namespace Index

/-- The table of the store that holds the entries of an index. -/
def storageTable (ix : Index) : String :=
  ix.table ++ "." ++ ix.name

/-- The declared columns. -/
def keyColumns (ix : Index) : List Column :=
  ix.columns.take ix.declared

/-- The columns that come from the hierarchical key. -/
def hierarchicalColumns (ix : Index) : List Column :=
  ix.columns.drop ix.declared

/-- Position of the first coordinate of a spatial index. -/
def firstCoordinate? (ix : Index) : Option Nat :=
  ix.spatial.map CoordinateGroup.first

/-- The number of coordinates, none for an index that is not spatial. -/
def dimensions (ix : Index) : Nat :=
  (ix.spatial.map CoordinateGroup.dimensions).getD 0

/-- The number of columns of a row. -/
def logicalCount (ix : Index) : Nat :=
  ix.columns.length

/-- The number of columns of a stored key. -/
def physicalCount (ix : Index) : Nat :=
  match ix.spatial with
  | none => ix.columns.length
  | some g => ix.columns.length - g.dimensions + 1

/-- Whether each column of a stored key ascends; ordinals always do. -/
def physicalDirections (ix : Index) : List Bool :=
  match ix.spatial with
  | none => ix.columns.map Column.ascending
  | some g =>
      (ix.columns.take g.first).map Column.ascending ++
        true :: (ix.columns.drop g.after).map Column.ascending

end Index
end OrderedQuery
