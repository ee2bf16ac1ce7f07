import OrderedQuery.Expr.Eval
import OrderedQuery.Expr.Typing
import OrderedQuery.Index.Codec
import OrderedQuery.Key.Successor
import OrderedQuery.Store.Range

/-!
# Scans of an index

A scan reads the entries of an index between two bounds, each a list of expressions for
leading columns.  The bounds become a range of keys: keys that begin with the encoding of a
bound lie together, and the bound includes or excludes all of them.

| bound            | range of keys                              |
|------------------|--------------------------------------------|
| low, inclusive   | from the encoding                          |
| low, exclusive   | from the successor of the encoding         |
| high, exclusive  | up to the encoding, excluded               |
| high, inclusive  | up to the successor of the encoding, excluded |

Descending columns are stored complemented, so there the low bound is the high end of the
range.
-/

namespace OrderedQuery

/-- One bound of a scan: values for leading columns. -/
structure ScanBound where
  values : List Expr
  /-- Keys that hold exactly these values are inside. -/
  inclusive : Bool
  deriving DecidableEq, Repr

/-- The bounds of a scan. -/
structure ScanRange where
  low : Option ScanBound
  high : Option ScanBound
  deriving DecidableEq, Repr

namespace ScanRange

/-- The bounds there are, the low one first. -/
def bounds (r : ScanRange) : List ScanBound :=
  r.low.toList ++ r.high.toList

/-- The expressions of both bounds. -/
def exprs (r : ScanRange) : List Expr :=
  r.bounds.flatMap ScanBound.values

end ScanRange

/-- A scan of an index. -/
structure IndexScan where
  index : Index
  range : ScanRange
  direction : Direction
  /-- The bounded columns are descending. -/
  boundsDescending : Bool
  rowType : RowType

namespace IndexScan

/-- The direction that gives the requested order of leading columns, each `true` for
ascending.  An order that is neither that of the index nor its reverse is refused. -/
def scanDirection (ix : Index) (ordering : List Bool) : Except QueryError Direction :=
  if ix.columns.length < ordering.length then
    .error (.plan (.orderingTooLong ordering.length ix.name ix.columns.length))
  else
    let pairs := ordering.zip ix.columns
    if pairs.all fun (ascending, c) => ascending == c.ascending then .ok .forward
    else if pairs.all fun (ascending, c) => ascending != c.ascending then .ok .backward
    else .error (.plan (.mixedOrdering ix.name))

/-- Checks the expressions of a bound against the columns they stand for. -/
def checkBoundTypes : List Expr → List Column → Except QueryError Unit
  | e :: es, c :: cs =>
      if e.readsFields then .error (.plan .boundReadsFields)
      else do
        let type ← e.type (.ofFields [])
        if type = c.type then checkBoundTypes es cs
        else .error (.plan (.boundOfOtherType c.name type c.type))
  | _, _ => .ok ()

/-- Checks a bound of a scan. -/
def checkBound (ix : Index) (b : ScanBound) : Except QueryError Unit :=
  let length := b.values.length
  if length = 0 then .error (.plan .emptyBound)
  else if ix.columns.length < length then
    .error (.plan (.boundTooLong length ix.name ix.columns.length))
  else do
    checkBoundTypes b.values ix.columns
    match ix.spatial with
    | none => .ok ()
    | some g =>
        if g.first < length ∧ length < g.after then
          .error (.plan (.boundSplitsCoordinates length ix.name))
        else .ok ()

/-- Checks several bounds in turn. -/
def checkBounds (ix : Index) : List ScanBound → Except QueryError Unit
  | [] => .ok ()
  | b :: rest => do
      checkBound ix b
      checkBounds ix rest

/-- The type of the rows of an index: all columns, in key order. -/
def rowTypeOf (ix : Index) : RowType :=
  ⟨ix.columns.map Column.type, some (.index ix.table ix.name)⟩

/-- The scan of an index over a range, in a requested order; an empty order is that of the
index.  The bounded columns must have one direction. -/
def build (ix : Index) (range : ScanRange) (ordering : List Bool) :
    Except QueryError IndexScan := do
  let direction ← scanDirection ix ordering
  checkBounds ix range.bounds
  let bounded := (range.bounds.map fun b => b.values.length).foldl max 0
  let descending := (ix.columns.take bounded).head?.any fun c => !c.ascending
  if (ix.columns.take bounded).any fun c => c.ascending == descending then
    .error (.plan (.mixedBoundColumns ix.name))
  else .ok ⟨ix, range, direction, descending, rowTypeOf ix⟩

/-- The values of expressions that read no row. -/
def evalAll (env : Env) : List Expr → Except QueryError (List Value)
  | [] => .ok []
  | e :: es => do
      let v ← e.eval none env
      let vs ← evalAll env es
      .ok (v :: vs)

/-- The encoding of a bound, and whether it is inclusive. -/
def encodeBound (s : IndexScan) (env : Env) :
    Option ScanBound → Except QueryError (Option (Bytes × Bool))
  | none => .ok none
  | some b => do
      let values ← evalAll env b.values
      let key ← (s.index.encodeLeading values).mapError .index
      .ok (some (key, b.inclusive))

/-- The lower end of the keys that satisfy a bound; `none` if there are no such keys. -/
def lowEnd : Option (Bytes × Bool) → Option Bound
  | none => some .unbounded
  | some (key, true) => some (.included key)
  | some (key, false) => (Key.successor? key).map .included

/-- The upper end of the keys that satisfy a bound. -/
def highEnd : Option (Bytes × Bool) → Bound
  | none => .unbounded
  | some (key, false) => .excluded key
  | some (key, true) =>
      match Key.successor? key with
      | some above => .excluded above
      | none => .unbounded

/-- The range of keys between the bounds, unless it is empty. -/
def keyRange (s : IndexScan) (env : Env) : Except QueryError (Option KeyRange) := do
  let low ← s.encodeBound env s.range.low
  let high ← s.encodeBound env s.range.high
  let (lower, upper) := if s.boundsDescending then (high, low) else (low, high)
  match lowEnd lower with
  | none => .ok none
  | some start =>
      let range : KeyRange := ⟨start, highEnd upper⟩
      .ok (if range.isEmpty then none else some range)

end IndexScan
end OrderedQuery
