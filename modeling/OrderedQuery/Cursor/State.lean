/-!
# States of a cursor

A cursor is idle until it is opened, active until its rows run out or it is closed, and
destroyed for good once it has been destroyed.
-/

namespace OrderedQuery

/-- The state of a cursor. -/
inductive CursorState where
  | idle
  | active
  | destroyed
  deriving DecidableEq, Repr

/-- The name of a state. -/
def CursorState.name : CursorState → String
  | idle => "idle"
  | active => "active"
  | destroyed => "destroyed"

end OrderedQuery
