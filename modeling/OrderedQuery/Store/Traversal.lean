import OrderedQuery.Store.Basic

/-!
# Walking through a range in batches

A traversal fetches a batch of entries at a time and remembers the last key it handed out.
Each batch is fetched from whatever the store is at that moment and starts after that key.
A batch that is not full is the last one.

As long as the name of the table holds no zero byte, batches continue each other and no key
comes twice.  Otherwise entries whose stored keys begin with that name and a zero byte are
handed out under longer keys than they were written with, and the next batch starts after
such a key: it can miss entries or repeat them, and a walk can go round for ever.
-/

namespace OrderedQuery

/-- A walk over one range of one table. -/
structure Traversal where
  table : String
  range : KeyRange
  direction : Direction
  /-- Entries fetched at a time, at least one. -/
  batchSize : Nat
  /-- Entries fetched but not handed out yet. -/
  batch : List Entry
  /-- The last key handed out. -/
  lastKey : Option Bytes
  /-- Nothing more is to be fetched. -/
  exhausted : Bool
  deriving DecidableEq, Repr

namespace Traversal

/-- A traversal before the first key of a range. -/
def start (table : String) (range : KeyRange) (direction : Direction) (batchSize : Nat) :
    Traversal :=
  ⟨table, range, direction, max batchSize 1, [], none, range.isEmpty⟩

/-- Fetches the next batch if there is none in hand. -/
def refill (t : Traversal) (store : Store) : Traversal :=
  if t.batch.isEmpty && !t.exhausted then
    let fetched := store.scan t.table t.range t.lastKey t.direction t.batchSize
    { t with batch := fetched, exhausted := decide (fetched.length < t.batchSize) }
  else t

/-- Hands out the next entry. -/
def next (t : Traversal) (store : Store) : Option Entry × Traversal :=
  let t := t.refill store
  match t.batch with
  | [] => (none, t)
  | e :: rest => (some e, { t with batch := rest, lastKey := some e.1 })

/-- At least as many entries as a walk can fetch from an unchanging store before it ends.
What a batch holds depends on the key it starts after alone, so a walk that comes to an end
starts after no key twice: it fetches one batch, and one more for each key there is. -/
def fetchLimit (store : Store) : Nat :=
  (store.entries.length + 1) * store.entries.length

/-- At least as many entries as are still to come if the store does not change and the walk
comes to an end, whatever the name of the table. -/
def pending (t : Traversal) (store : Store) : Nat :=
  t.batch.length + if t.exhausted then 0 else fetchLimit store

/-- Hands out entries, `fuel` of them at most, until there are no more. -/
def drainWith (store : Store) : Nat → Traversal → List Entry × Traversal
  | 0, t => ([], t)
  | fuel + 1, t =>
      match t.next store with
      | (none, t) => ([], t)
      | (some e, t) =>
          let (entries, t) := drainWith store fuel t
          (e :: entries, t)

/-- Hands out all entries that are still to come. -/
def drain (t : Traversal) (store : Store) : List Entry × Traversal :=
  drainWith store (t.pending store + 1) t

end Traversal
end OrderedQuery
