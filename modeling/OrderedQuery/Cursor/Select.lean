import OrderedQuery.Cursor.Machine
import OrderedQuery.Expr.Eval

/-!
# Cursors that filter their input

A row passes if the predicate is exactly true; a row on which it is null is dropped like one
on which it is false.
-/

namespace OrderedQuery
namespace SelectCursor

variable {σ : Type}

/-- Nothing is kept during a run. -/
abbrev State (σ : Type) := Node Unit σ

/-- The predicate is true of a row. -/
def passes (predicate : Expr) (base : CursorBase) (row : Row) : Except QueryError Bool := do
  let env ← base.currentEnv
  let v ← predicate.eval (some row) env
  .ok (decide (v = .bool true))

/-- Takes rows of the input, `fuel` at most, until one passes. -/
def search (m : Machine σ) (predicate : Expr) (ctx : Context) :
    Nat → State σ → World → Outcome (State σ) (Option Row)
  | 0, s, w => ⟨.error .stalled, s, w⟩
  | fuel + 1, s, w =>
      let o := Node.onInput m.next ctx s w
      let s := o.state
      match o.result with
      | .error e => ⟨.error e, s, o.world⟩
      | .ok none => ⟨.ok none, { s with base := s.base.finish }, o.world⟩
      | .ok (some row) =>
          match passes predicate s.base row with
          | .error e => ⟨.error e, s, o.world⟩
          | .ok true =>
              ⟨.ok (some row), { s with base := s.base.hand (some row) }, o.world⟩
          | .ok false => search m predicate ctx fuel s o.world

/-- Hands out the next row that passes. -/
def next (m : Machine σ) (predicate : Expr) : Action (State σ) (Option Row) := fun ctx s w =>
  match s.base.checkNext with
  | .error e => ⟨.error e, s, w⟩
  | .ok () => search m predicate ctx (m.pending ctx s.input w + 1) s w

/-- The cursor of a selection. -/
def machine (m : Machine σ) (predicate : Expr) : Machine (State σ) where
  base s := s.base
  fresh source := ⟨.start "Select", m.fresh source, ()⟩
  pending ctx s w := m.pending ctx s.input w
  openRun := Node.openRun m id
  next := next m predicate
  closeRun := Node.closeRun m id
  destroy := Node.destroy m (Node.closeRun m id)
  openBindings := Node.openBindings m
  nextBindings := Node.nextBindings m
  closeBindings := Node.closeBindings m
  letGo s w := m.letGo s.input w

end SelectCursor
end OrderedQuery
