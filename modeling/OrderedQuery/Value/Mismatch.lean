import OrderedQuery.Value.Display

/-!
# Type mismatches

The report of a value that does not fit names the expected and the actual type and shows
the value, cut to at most a hundred bytes.
-/

namespace OrderedQuery

/-- The longest text, in bytes, that a mismatch shows in full. -/
def shownBytes : Nat := 100

/-- As many leading characters as fit into `room` bytes. -/
def takeBytes : Nat → List Char → List Char
  | _, [] => []
  | room, c :: rest =>
      if c.utf8Size ≤ room then c :: takeBytes (room - c.utf8Size) rest else []

/-- A text cut to `shownBytes`, with dots that mark the cut. -/
def abridged (s : String) : String :=
  if s.utf8ByteSize ≤ shownBytes then s
  else String.ofList (takeBytes shownBytes s.toList) ++ "..."

/-- A value of the wrong type. -/
structure Mismatch where
  /-- Name of the type that was declared. -/
  expected : String
  /-- Name of the type that was found. -/
  actual : String
  /-- The text that is shown for the value. -/
  shown : Option String
  deriving DecidableEq, Repr

namespace Mismatch

/-- A mismatch that shows a text. -/
def showing (expected actual text : String) : Mismatch :=
  ⟨expected, actual, some (abridged text)⟩

/-- The mismatch of a value with the type declared for it. -/
def ofValue (expected : ValueType) (v : Value) : Mismatch :=
  showing expected.name v.typeName v.display

/-- The report of a mismatch. -/
def message (m : Mismatch) : String :=
  s!"type mismatch: expected {m.expected}, got {m.actual}" ++
    (m.shown.map fun text => s!" (value: {text})").getD ""

end Mismatch
end OrderedQuery
