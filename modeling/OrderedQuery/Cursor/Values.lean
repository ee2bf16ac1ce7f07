import OrderedQuery.Cursor.Machine

/-!
# Cursors over given rows

The cursor counts the rows it has passed.
-/

namespace OrderedQuery
namespace ValuesCursor

/-- The state of a cursor: the number of rows passed in the current run. -/
abbrev State := Leaf Nat

variable (rows : List Row)

/-- Starts before the first row. -/
def openRun : Action State Unit := fun _ s w =>
  match s.base.beginOpen with
  | .error e => ⟨.error e, s, w⟩
  | .ok base => ⟨.ok (), { s with base, run := 0 }, w⟩

/-- Hands out the row at the current place. -/
def next : Action State (Option Row) := fun _ s w =>
  match s.base.checkNext with
  | .error e => ⟨.error e, s, w⟩
  | .ok () =>
      let row := rows[s.run]?
      ⟨.ok row, { s with base := s.base.hand row, run := s.run + 1 }, w⟩

/-- Ends the run. -/
def closeRun : Action State Unit := fun _ s w =>
  match s.base.beginClose with
  | .error e => ⟨.error e, s, w⟩
  | .ok base => ⟨.ok (), { s with base }, w⟩

/-- The cursor over `rows`. -/
def machine : Machine State where
  base s := s.base
  fresh source := ⟨.start "Values", source, 0⟩
  pending _ s _ :=
    match s.base.state with
    | .active => rows.length - s.run
    | _ => rows.length
  openRun := openRun
  next := next rows
  closeRun := closeRun
  destroy := Leaf.destroy closeRun
  openBindings := Leaf.openBindings
  nextBindings := Leaf.nextBindings
  closeBindings := Leaf.closeBindings
  letGo _ w := w

end ValuesCursor
end OrderedQuery
