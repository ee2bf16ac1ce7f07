import OrderedQuery.Cursor.Machine
import OrderedQuery.Plan.IndexScan
import OrderedQuery.Store.Traversal

/-!
# Cursors over an index

Opening computes the range of keys from the environment.  Each call of `next` takes one key
and decodes it into a row.
-/

namespace OrderedQuery
namespace IndexScanCursor

/-- The state of a cursor; there is no traversal if the range is empty or used up. -/
abbrev State := Leaf (Option Traversal)

variable (scan : IndexScan)

/-- The traversal of a run. -/
def traversal? (ctx : Context) (base : CursorBase) : Except QueryError (Option Traversal) := do
  let env ← base.currentEnv
  let range ← scan.keyRange env
  .ok (range.map fun r =>
    Traversal.start scan.index.storageTable r scan.direction ctx.config.scanBatchSize)

/-- Places a traversal before the first key of the range. -/
def openRun : Action State Unit := fun ctx s w =>
  match s.base.beginOpen with
  | .error e => ⟨.error e, s, w⟩
  | .ok base =>
      match traversal? scan ctx base with
      | .error e => ⟨.error e, { s with base := base.finish }, w⟩
      | .ok run => ⟨.ok (), { s with base, run }, w⟩

/-- The row stored under a key. -/
def rowOf (key : Bytes) : Except QueryError Row := do
  let values ← (scan.index.decodeRow key).mapError .index
  Row.ofValues scan.rowType values

/-- Takes the next entry of the traversal. -/
def advance (ctx : Context) (w : World) :
    Option Traversal → Option Entry × Option Traversal
  | none => (none, none)
  | some t =>
      let (entry, t) := t.next (w.engine.view ctx.session)
      (entry, some t)

/-- Hands out the row of the next key. -/
def next : Action State (Option Row) := fun ctx s w =>
  match s.base.checkNext with
  | .error e => ⟨.error e, s, w⟩
  | .ok () =>
      match w.check ctx with
      | (.error e, w) => ⟨.error e, s, w⟩
      | (.ok (), w) =>
          match advance ctx w s.run with
          | (none, _) => ⟨.ok none, { s with base := s.base.finish, run := none }, w⟩
          | (some (key, _), run) =>
              let w := w.recordRead 1
              match rowOf scan key with
              | .error e => ⟨.error e, { s with run }, w⟩
              | .ok row =>
                  ⟨.ok (some row), { s with base := s.base.hand (some row), run }, w⟩

/-- Ends the run. -/
def closeRun : Action State Unit := fun _ s w =>
  match s.base.beginClose with
  | .error e => ⟨.error e, s, w⟩
  | .ok base => ⟨.ok (), { s with base, run := none }, w⟩

/-- The entries that the traversal can still hand out, or that the next one can fetch. -/
def pending (ctx : Context) (s : State) (w : World) : Nat :=
  let view := w.engine.view ctx.session
  match s.base.state with
  | .active => (s.run.map fun t => t.pending view).getD 0
  | _ => Traversal.fetchLimit view

/-- The cursor of a scan. -/
def machine : Machine State where
  base s := s.base
  fresh source := ⟨.start "IndexScan", source, none⟩
  pending := pending
  openRun := openRun scan
  next := next scan
  closeRun := closeRun
  destroy := Leaf.destroy closeRun
  openBindings := Leaf.openBindings
  nextBindings := Leaf.nextBindings
  closeBindings := Leaf.closeBindings
  letGo _ w := w

end IndexScanCursor
end OrderedQuery
