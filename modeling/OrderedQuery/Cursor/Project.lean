import OrderedQuery.Cursor.Machine
import OrderedQuery.Plan.Projection

/-!
# Cursors that compute rows from their input

One row is computed from each input row.
-/

namespace OrderedQuery
namespace ProjectCursor

variable {σ : Type}

/-- Nothing is kept during a run. -/
abbrev State (σ : Type) := Node Unit σ

/-- The row computed from an input row in the current environment. -/
def rowOf (p : Projection) (base : CursorBase) (row : Row) : Except QueryError Row := do
  let env ← base.currentEnv
  p.apply env row

/-- Hands out the row computed from the next input row. -/
def next (m : Machine σ) (p : Projection) : Action (State σ) (Option Row) := fun ctx s w =>
  match s.base.checkNext with
  | .error e => ⟨.error e, s, w⟩
  | .ok () =>
      let o := Node.onInput m.next ctx s w
      let s := o.state
      match o.result with
      | .error e => ⟨.error e, s, o.world⟩
      | .ok none => ⟨.ok none, { s with base := s.base.finish }, o.world⟩
      | .ok (some input) =>
          match rowOf p s.base input with
          | .error e => ⟨.error e, s, o.world⟩
          | .ok row =>
              ⟨.ok (some row), { s with base := s.base.hand (some row) }, o.world⟩

/-- The cursor of a projection. -/
def machine (m : Machine σ) (p : Projection) : Machine (State σ) where
  base s := s.base
  fresh source := ⟨.start "Project", m.fresh source, ()⟩
  pending ctx s w := m.pending ctx s.input w
  openRun := Node.openRun m id
  next := next m p
  closeRun := Node.closeRun m id
  destroy := Node.destroy m (Node.closeRun m id)
  openBindings := Node.openBindings m
  nextBindings := Node.nextBindings m
  closeBindings := Node.closeBindings m
  letGo s w := m.letGo s.input w

end ProjectCursor
end OrderedQuery
