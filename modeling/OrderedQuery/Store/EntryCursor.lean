import OrderedQuery.Store.Basic

/-!
# Positioned cursors over a range

An entry cursor moves both ways over the entries of a range.  It holds one batch of them,
in ascending order, and fetches the neighbouring batch when a move leads past an end.  A
cursor without a position moves to the first entry by `next` and to the last by `prev`, and
a move past either end leaves it without a position.
-/

namespace OrderedQuery

/-- A batch of entries of a range and a place in it. -/
structure EntryCursor where
  table : String
  range : KeyRange
  /-- Entries fetched at a time, at least one. -/
  batchSize : Nat
  /-- The entries in hand, ascending. -/
  batch : List Entry
  /-- The place of the current entry in the batch. -/
  position : Option Nat
  deriving DecidableEq, Repr

namespace EntryCursor

/-- Entries per batch unless chosen otherwise. -/
def defaultBatchSize : Nat := 1000

/-- A cursor without a position. -/
def start (table : String) (range : KeyRange) (batchSize : Nat) : EntryCursor :=
  ⟨table, range, max batchSize 1, [], none⟩

/-- The entry at the position. -/
def current? (c : EntryCursor) : Option Entry :=
  c.position.bind (c.batch[·]?)

/-- A batch of entries, ascending. -/
def fetch (c : EntryCursor) (store : Store) (range : KeyRange) (resume : Option Bytes)
    (direction : Direction) : List Entry :=
  let found := store.scan c.table range resume direction c.batchSize
  match direction with
  | .forward => found
  | .backward => found.reverse

/-- Takes a new batch and moves to its first entry. -/
def landFirst (c : EntryCursor) (batch : List Entry) : EntryCursor :=
  { c with batch, position := if batch.isEmpty then none else some 0 }

/-- Takes a new batch and moves to its last entry. -/
def landLast (c : EntryCursor) (batch : List Entry) : EntryCursor :=
  { c with batch, position := if batch.isEmpty then none else some (batch.length - 1) }

/-- Moves to the first entry of the range. -/
def seekFirst (c : EntryCursor) (store : Store) : EntryCursor :=
  c.landFirst (c.fetch store c.range none .forward)

/-- Moves to the last entry of the range. -/
def seekLast (c : EntryCursor) (store : Store) : EntryCursor :=
  c.landLast (c.fetch store c.range none .backward)

/-- Moves to the first entry of the range whose key is `key` or above. -/
def seek (c : EntryCursor) (store : Store) (key : Bytes) : EntryCursor :=
  let low := match c.range.low with
    | .included k => if key ≤ k then .included k else .included key
    | .excluded k => if key ≤ k then .excluded k else .included key
    | .unbounded => .included key
  c.landFirst (c.fetch store ⟨low, c.range.high⟩ none .forward)

/-- Moves to the entry after the current one. -/
def next (c : EntryCursor) (store : Store) : EntryCursor :=
  match c.position with
  | none => c.seekFirst store
  | some p =>
      if p + 1 < c.batch.length then { c with position := some (p + 1) }
      else
        let resume := c.batch.getLast?.map Prod.fst
        c.landFirst (c.fetch store c.range resume .forward)

/-- Moves to the entry before the current one. -/
def prev (c : EntryCursor) (store : Store) : EntryCursor :=
  match c.position with
  | none => c.seekLast store
  | some p =>
      if 0 < p then { c with position := some (p - 1) }
      else
        let resume := c.batch.head?.map Prod.fst
        c.landLast (c.fetch store c.range resume .backward)

end EntryCursor
end OrderedQuery
