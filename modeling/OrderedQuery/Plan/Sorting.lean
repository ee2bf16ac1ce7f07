import OrderedQuery.Row.Basic

/-!
# Bounded sorting

A sort keeps the first `limit` rows under its keys.  Rows with equal keys stay in the order
they came in, or all but the first of them are dropped.
-/

namespace OrderedQuery

/-- A field rows are sorted by. -/
structure SortKey where
  field : Nat
  ascending : Bool
  deriving DecidableEq, Repr

/-- What becomes of rows with equal keys. -/
inductive DuplicatePolicy where
  | preserve
  | suppress
  deriving DecidableEq, Repr

/-- The keys of a sort, its treatment of equal rows and its size. -/
structure Sorting where
  keys : List SortKey
  policy : DuplicatePolicy
  limit : Nat
  deriving DecidableEq, Repr

namespace Sorting

/-- The sort of rows of type `input`. -/
def build (input : RowType) (s : Sorting) : Except QueryError Sorting :=
  match s.keys.find? fun k => decide (input.arity ≤ k.field) with
  | some k => .error (.plan (.sortFieldOutOfRange k.field input.arity))
  | none => .ok s

/-- Orders two rows by one key. -/
def compareKey (k : SortKey) (a b : Row) : Ordering :=
  match a.value? k.field, b.value? k.field with
  | some x, some y =>
      let o := x.totalCompare y
      if k.ascending then o else o.swap
  | _, _ => .eq

/-- Orders two rows by several keys, the first that tells them apart. -/
def compareBy (keys : List SortKey) (a b : Row) : Ordering :=
  match keys with
  | [] => .eq
  | k :: rest => (compareKey k a b).then (compareBy rest a b)

/-- Orders two rows. -/
def compare (s : Sorting) (a b : Row) : Ordering :=
  compareBy s.keys a b

/-- Puts a row behind those that are not above it. -/
def place (s : Sorting) (row : Row) (held : List Row) : List Row :=
  held.takeWhile (fun r => (s.compare r row).isLE) ++
    row :: held.dropWhile fun r => (s.compare r row).isLE

/-- A row that is held has the same keys. -/
def holdsEqual (s : Sorting) (row : Row) (held : List Row) : Bool :=
  (held.takeWhile fun r => (s.compare r row).isLE).getLast?.any fun r =>
    (s.compare r row).isEq

/-- Takes one more row. -/
def insert (s : Sorting) (held : List Row) (row : Row) : List Row :=
  if s.policy = .suppress ∧ s.holdsEqual row held then held
  else (s.place row held).take s.limit

/-- Refuses a sort that may hold more rows than are allowed; `0` allows any number. -/
def checkLimit (s : Sorting) (allowed : Nat) : Except QueryError Unit :=
  if allowed ≠ 0 ∧ allowed < s.limit then .error (.resourceLimit s.limit allowed)
  else .ok ()

end Sorting
end OrderedQuery
