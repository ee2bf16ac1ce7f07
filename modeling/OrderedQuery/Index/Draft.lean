import OrderedQuery.Index.Basic
import OrderedQuery.Index.Error

/-!
# Drafts of index definitions

A draft collects columns one by one.  `Index.Draft.build` turns it into a definition, or
says what is wrong with it: there must be a declared column, no declared column may follow
a hierarchical one, names must differ, and coordinates must be two ascending declared
integer columns next to each other.
-/

namespace OrderedQuery
namespace Index

/-- The draft of an index definition. -/
structure Draft where
  table : String
  name : String
  columns : List Column := []
  unique : Bool := false
  spatial : Option CoordinateGroup := none
  deriving DecidableEq, Repr

namespace Draft

open scoped CoreInstances

/-- Adds a column at the end. -/
def add (d : Draft) (c : Column) : Draft :=
  { d with columns := d.columns ++ [c] }

/-- Adds an ascending declared column. -/
def column (d : Draft) (name : String) (type : ValueType) : Draft :=
  d.add ⟨name, type, true, .declared⟩

/-- Adds a descending declared column. -/
def descendingColumn (d : Draft) (name : String) (type : ValueType) : Draft :=
  d.add ⟨name, type, false, .declared⟩

/-- Adds a column of the hierarchical key, which always ascends. -/
def hierarchicalColumn (d : Draft) (name : String) (type : ValueType) : Draft :=
  d.add ⟨name, type, true, .hierarchical⟩

/-- Makes the declared columns identify at most one entry. -/
def markUnique (d : Draft) : Draft :=
  { d with unique := true }

/-- Stores `dimensions` columns from position `first` on as one ordinal. -/
def markSpatial (d : Draft) (first dimensions : Nat) : Draft :=
  { d with spatial := some ⟨first, dimensions⟩ }

/-- Number of leading declared columns. -/
def declaredCount (d : Draft) : Nat :=
  (d.columns.takeWhile fun c => decide (c.kind = .declared)).length

/-- The first column name that occurs for the second time. -/
def duplicate? (d : Draft) : Option String :=
  go [] d.columns
where
  /-- Looks for a repetition, given the names seen so far. -/
  go (seen : List String) : List Column → Option String
    | [] => none
    | c :: rest => if c.name ∈ seen then some c.name else go (c.name :: seen) rest

/-- Checks the coordinate group of a draft.  The position after the group has to fit in a
machine word of 64 bits. -/
def checkGroup (d : Draft) (g : CoordinateGroup) : Except IndexError Unit :=
  if g.dimensions ≠ 2 then .error (.badDraft d.name (.wrongDimensions g.dimensions))
  else if 2 ^ (64 : Nat) ≤ g.after then .error .positionOverflow
  else if d.declaredCount < g.after then
    .error (.badDraft d.name (.coordinatesBeyondDeclared g.first g.after d.declaredCount))
  else
    match ((d.columns.drop g.first).take g.dimensions).find? fun c =>
        decide (c.type ≠ .int) || !c.ascending with
    | some c => .error (.badDraft d.name (.badCoordinate c.name))
    | none => .ok ()

/-- Checks a draft and turns it into a definition. -/
def build (d : Draft) : Except IndexError Index :=
  let declared := d.declaredCount
  if declared = 0 then .error (.badDraft d.name .noDeclaredColumn)
  else if (d.columns.drop declared).any fun c => decide (c.kind = .declared) then
    .error (.badDraft d.name .declaredAfterHierarchical)
  else
    match d.duplicate? with
    | some name => .error (.badDraft d.name (.duplicateColumn name))
    | none =>
        let index : Index := ⟨d.table, d.name, d.columns, declared, d.unique, d.spatial⟩
        match d.spatial with
        | none => .ok index
        | some g => (d.checkGroup g).map fun _ => index

end Draft
end Index
end OrderedQuery
