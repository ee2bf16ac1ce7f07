import OrderedQuery.Key.Decoding
import OrderedQuery.Space
import OrderedQuery.Value.Mismatch

/-!
# Errors of index definitions and keys

The causes are kept apart; `IndexError.message` words them.
-/

namespace OrderedQuery

/-- What is wrong with the draft of a definition. -/
inductive DraftFault where
  | noDeclaredColumn
  | declaredAfterHierarchical
  | duplicateColumn (name : String)
  | wrongDimensions (n : Nat)
  | coordinatesBeyondDeclared (first after declared : Nat)
  | badCoordinate (column : String)
  deriving DecidableEq, Repr

/-- The report of a fault in a draft. -/
def DraftFault.message : DraftFault → String
  | noDeclaredColumn => "at least one declared column is required"
  | declaredAfterHierarchical => "declared columns must precede hierarchical-key columns"
  | duplicateColumn name => s!"duplicate column {name}"
  | wrongDimensions n => s!"spatial indexes have 2 dimensions, got {n}"
  | coordinatesBeyondDeclared first after declared =>
      s!"coordinates {first}..{after} exceed the {declared} declared columns"
  | badCoordinate column => s!"coordinate column {column} must be an ascending Int"

/-- Why a definition, a key or its values are refused. -/
inductive IndexError where
  /-- The bytes of a key column are malformed. -/
  | malformed (fault : Key.Fault)
  /-- A key goes on after its last column. -/
  | trailingBytes (count : Nat) (index : String)
  /-- The ordinal of a spatial index is neither an integer nor null. -/
  | badOrdinal (index : String) (found : Option Value)
  /-- Catalog bytes hold no definition. -/
  | badCatalogEntry
  /-- A value does not have the type of its column. -/
  | mismatch (m : Mismatch)
  /-- A draft is no definition. -/
  | badDraft (index : String) (fault : DraftFault)
  /-- A position is too large for a machine word. -/
  | positionOverflow
  /-- A full row has the wrong number of values. -/
  | wrongKeyCount (index : String) (expected actual : Nat)
  /-- There are more values than columns. -/
  | tooManyValues (index : String) (columns values : Nat)
  /-- The values end inside the coordinate group. -/
  | splitCoordinates (index : String) (values : Nat)
  /-- Some but not all coordinates are null. -/
  | partlyNull (index : String)
  /-- The coordinates are no point of the space. -/
  | outsideSpace (fault : Space.Fault)
  deriving DecidableEq, Repr

/-- The report of an error. -/
def IndexError.message : IndexError → String
  | malformed fault => fault.message
  | trailingBytes count index =>
      s!"encoding error: {count} trailing bytes after key of index {index}"
  | badOrdinal index found =>
      let shown := match found with
        | some v => "Some(" ++ v.displayTagged ++ ")"
        | none => "None"
      s!"encoding error: spatial ordinal of index {index} decoded as {shown}"
  | badCatalogEntry => "encoding error: failed to deserialize index"
  | mismatch m => m.message
  | badDraft index fault => s!"invalid index definition: {index}: {fault.message}"
  | positionOverflow => "attempt to add with overflow"
  | wrongKeyCount index expected actual =>
      s!"invalid index definition: index {index} expects {expected} key values, got {actual}"
  | tooManyValues index columns values =>
      s!"invalid index definition: index {index} has {columns} columns, got a prefix of {values}"
  | splitCoordinates index values =>
      s!"invalid index definition: prefix of {values} columns splits the coordinates of " ++
        s!"spatial index {index}"
  | partlyNull index =>
      s!"spatial error: index {index} has a partially null coordinate group"
  | outsideSpace fault => fault.message

/-- The kind of an error, which groups causes. -/
def IndexError.kind : IndexError → String
  | malformed _ | trailingBytes .. | badOrdinal .. | badCatalogEntry => "Encoding"
  | mismatch _ => "TypeMismatch"
  | badDraft .. | wrongKeyCount .. | tooManyValues .. | splitCoordinates .. => "InvalidIndex"
  | partlyNull _ | outsideSpace _ => "Spatial"
  | positionOverflow => "panic"

end OrderedQuery
