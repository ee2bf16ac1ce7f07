import OrderedQuery.Cursor.Machine
import OrderedQuery.Plan.Sorting

/-!
# Cursors that sort their input

Opening takes the whole input into a list of limited length; the rows are then handed out
from it.  When opening fails, the cursor is idle again, but its input is left as it is.
-/

namespace OrderedQuery
namespace SortCursor

variable {σ : Type}

/-- The state of a cursor, with the rows still to be handed out. -/
abbrev State (σ : Type) := Node (List Row) σ

/-- Takes the rows of the input, `fuel` at most, into a list. -/
def fill (m : Machine σ) (sorting : Sorting) (ctx : Context) :
    Nat → List Row → σ → World → Outcome σ (List Row)
  | 0, _, input, w => ⟨.error .stalled, input, w⟩
  | fuel + 1, held, input, w =>
      let o := m.next ctx input w
      match o.result with
      | .error e => ⟨.error e, o.state, o.world⟩
      | .ok none => ⟨.ok held, o.state, o.world⟩
      | .ok (some row) =>
          match o.world.check ctx with
          | (.error e, w) => ⟨.error e, o.state, w⟩
          | (.ok (), w) => fill m sorting ctx fuel (sorting.insert held row) o.state w

/-- Opens the input and takes all of its rows, provided that the limit is allowed. -/
def sorted (m : Machine σ) (sorting : Sorting) : Action σ (List Row) := fun ctx input w =>
  match sorting.checkLimit ctx.config.maxRowsInMemory with
  | .error e => ⟨.error e, input, w⟩
  | .ok () =>
      let o := m.openRun ctx input w
      match o.result with
      | .error e => ⟨.error e, o.state, o.world⟩
      | .ok () => fill m sorting ctx (m.pending ctx o.state o.world + 1) [] o.state o.world

/-- Sorts the input. -/
def openRun (m : Machine σ) (sorting : Sorting) : Action (State σ) Unit := fun ctx s w =>
  match s.base.beginOpen with
  | .error e => ⟨.error e, s, w⟩
  | .ok base =>
      let o := sorted m sorting ctx s.input w
      match o.result with
      | .error e => ⟨.error e, ⟨base.finish, o.state, []⟩, o.world⟩
      | .ok rows => ⟨.ok (), ⟨base, o.state, rows⟩, o.world⟩

/-- Hands out the next row. -/
def next : Action (State σ) (Option Row) := fun _ s w =>
  match s.base.checkNext with
  | .error e => ⟨.error e, s, w⟩
  | .ok () =>
      ⟨.ok s.run.head?, { s with base := s.base.hand s.run.head?, run := s.run.tail }, w⟩

/-- The rows that are held, or those that the input can return. -/
def pending (m : Machine σ) (ctx : Context) (s : State σ) (w : World) : Nat :=
  match s.base.state with
  | .active => s.run.length
  | _ => m.pending ctx s.input w

/-- The cursor of a sort. -/
def machine (m : Machine σ) (sorting : Sorting) : Machine (State σ) where
  base s := s.base
  fresh source := ⟨.start "Sort", m.fresh source, []⟩
  pending := pending m
  openRun := openRun m sorting
  next := next
  closeRun := Node.closeRun m fun _ => []
  destroy := Node.destroy m (Node.closeRun m fun _ => [])
  openBindings := Node.openBindings m
  nextBindings := Node.nextBindings m
  closeBindings := Node.closeBindings m
  letGo s w := m.letGo s.input w

end SortCursor
end OrderedQuery
