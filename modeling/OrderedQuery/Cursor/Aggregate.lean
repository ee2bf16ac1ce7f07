import OrderedQuery.Cursor.Machine
import OrderedQuery.Plan.Grouping

/-!
# Cursors that fold groups of their input

One group is open at a time.  Its end is noticed at the first row of the next group, whose
row is then handed out, or at the end of the input.
-/

namespace OrderedQuery
namespace AggregateCursor

open scoped CoreInstances

variable {σ : Type}

/-- What is kept during a run. -/
structure Progress where
  /-- The key of the open group. -/
  group : Option (List Value)
  slots : List Slot
  /-- The input has ended. -/
  inputDone : Bool
  deriving DecidableEq, Repr

/-- No group is open. -/
def Progress.start : Progress := ⟨none, [], false⟩

/-- The state of a cursor. -/
abbrev State (σ : Type) := Node Progress σ

/-- Ends the open group and computes its row. -/
def emit (g : Grouping) (p : Progress) : Except QueryError (Option Row) × Progress :=
  match p.group with
  | none => (.ok none, p)
  | some key =>
      ((g.rowOf key p.slots).map some, { p with group := none })

/-- Opens the group of a row. -/
def startGroup (g : Grouping) (row : Row) (p : Progress) : Progress :=
  { p with group := some (g.key row), slots := g.freshSlots }

/-- Gives a row to the open group. -/
def feed (g : Grouping) (row : Row) (p : Progress) : Except QueryError Unit × Progress :=
  let (result, slots) := Grouping.feed row g.calls p.slots
  (result, { p with slots })

/-- What an input row leads to. -/
inductive Step where
  /-- More rows are needed. -/
  | more
  /-- A group has ended. -/
  | finished (row : Option Row)
  | failed (e : QueryError)

/-- Takes an input row.  A row of another group first ends the open one, whose row is lost
if the new row is then refused. -/
def take (g : Grouping) (row : Row) (p : Progress) : Step × Progress :=
  match p.group with
  | none =>
      match feed g row (startGroup g row p) with
      | (.error e, p) => (.failed e, p)
      | (.ok (), p) => (.more, p)
  | some key =>
      if Grouping.sameKey key (g.key row) then
        match feed g row p with
        | (.error e, p) => (.failed e, p)
        | (.ok (), p) => (.more, p)
      else
        match emit g p with
        | (.error e, p) => (.failed e, p)
        | (.ok finished, p) =>
            match feed g row (startGroup g row p) with
            | (.error e, p) => (.failed e, p)
            | (.ok (), p) => (.finished finished, p)

/-- Hands out the row of the last group, or ends the run. -/
def flush (g : Grouping) (s : State σ) (w : World) : Outcome (State σ) (Option Row) :=
  match emit g s.run with
  | (.error e, run) => ⟨.error e, { s with run }, w⟩
  | (.ok row, run) => ⟨.ok row, { s with base := s.base.hand row, run }, w⟩

/-- Takes rows of the input, `fuel` at most, until a group ends. -/
def search (m : Machine σ) (g : Grouping) (ctx : Context) :
    Nat → State σ → World → Outcome (State σ) (Option Row)
  | 0, s, w => ⟨.error .stalled, s, w⟩
  | fuel + 1, s, w =>
      let o := Node.onInput m.next ctx s w
      let s := o.state
      match o.result with
      | .error e => ⟨.error e, s, o.world⟩
      | .ok none => flush g { s with run := { s.run with inputDone := true } } o.world
      | .ok (some row) =>
          match take g row s.run with
          | (.more, run) => search m g ctx fuel { s with run } o.world
          | (.failed e, run) => ⟨.error e, { s with run }, o.world⟩
          | (.finished row, run) =>
              ⟨.ok row, { s with base := s.base.hand row, run }, o.world⟩

/-- At least as many rows as a search takes before it ends, if it ends at all.  An input that
goes round for ever can still be left when a function refuses a value, and a sum or product
that leaves the 64-bit integers does so within `2 ^ 64` rounds. -/
def searchLimit (m : Machine σ) (ctx : Context) (s : State σ) (w : World) : Nat :=
  2 ^ (64 : Nat) * m.pending ctx s.input w

/-- Hands out the row of the next group. -/
def next (m : Machine σ) (g : Grouping) : Action (State σ) (Option Row) := fun ctx s w =>
  match s.base.checkNext with
  | .error e => ⟨.error e, s, w⟩
  | .ok () =>
      if s.run.inputDone then flush g s w
      else search m g ctx (searchLimit m ctx s w + 1) s w

/-- At most one group for every row still to come, and the one that is open. -/
def pending (m : Machine σ) (ctx : Context) (s : State σ) (w : World) : Nat :=
  let openGroup := if s.run.group.isSome then 1 else 0
  match s.base.state with
  | .active =>
      if s.run.inputDone then openGroup else m.pending ctx s.input w + openGroup
  | _ => m.pending ctx s.input w

/-- Nothing is left of the groups. -/
def clear (p : Progress) : Progress := { p with group := none, slots := [] }

/-- The cursor of a grouping. -/
def machine (m : Machine σ) (g : Grouping) : Machine (State σ) where
  base s := s.base
  fresh source := ⟨.start "Aggregate", m.fresh source, .start⟩
  pending := pending m
  openRun := Node.openRun m fun _ => .start
  next := next m g
  closeRun := Node.closeRun m clear
  destroy := Node.destroy m (Node.closeRun m clear)
  openBindings := Node.openBindings m
  nextBindings := Node.nextBindings m
  closeBindings := Node.closeBindings m
  letGo s w := m.letGo s.input w

end AggregateCursor
end OrderedQuery
