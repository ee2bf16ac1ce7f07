import OrderedQuery.Plan.Grouping
import OrderedQuery.Plan.IndexScan
import OrderedQuery.Plan.Partitions
import OrderedQuery.Plan.Projection
import OrderedQuery.Plan.Sorting

/-!
# Plans

A plan is a tree of operators.  The functions `Plan.of…` check a node before they build it,
so that a plan they accept has nothing structurally wrong with it.
-/

namespace OrderedQuery

/-- A plan. -/
inductive Plan where
  /-- Rows given in the plan. -/
  | values (type : RowType) (rows : List Row)
  | scan (s : IndexScan)
  /-- The input rows for which a predicate is true. -/
  | select (input : Plan) (predicate : Expr)
  | project (input : Plan) (p : Projection)
  | aggregate (input : Plan) (g : Grouping)
  | sort (input : Plan) (s : Sorting)
  /-- The input once for every partition, all of them at the same time. -/
  | map (input : Plan) (m : Partitioning)

namespace Plan

/-- The name of an operator. -/
def name : Plan → String
  | values .. => "Values"
  | scan _ => "IndexScan"
  | select .. => "Select"
  | project .. => "Project"
  | aggregate .. => "Aggregate"
  | sort .. => "Sort"
  | map .. => "MapParallel"

/-- The type of the rows of a plan. -/
def rowType : Plan → RowType
  | values type _ => type
  | scan s => s.rowType
  | select input _ => input.rowType
  | project _ p => p.rowType
  | aggregate _ g => g.rowType
  | sort input _ => input.rowType
  | map input _ => input.rowType

/-- The plan below the root. -/
def input? : Plan → Option Plan
  | values .. | scan _ => none
  | select input _ | project input _ | aggregate input _ | sort input _ | map input _ =>
      some input

/-- The positions a plan reads from its caller.  A parallel map binds its own position. -/
def reads : Plan → List Nat
  | values .. => []
  | scan s => s.range.exprs.flatMap Expr.reads
  | select input predicate => predicate.reads ++ input.reads
  | project input p => p.exprs.flatMap Expr.reads ++ input.reads
  | aggregate input _ => input.reads
  | sort input _ => input.reads
  | map input m => input.reads.filter (· != m.position)

/-- The positions a plan reads from its caller, ascending. -/
def boundPositions (p : Plan) : List Nat :=
  ascendingSet p.reads

/-- Refuses expressions that read a position above the largest one. -/
def checkPositions : List Expr → Except QueryError Unit
  | [] => .ok ()
  | e :: es =>
      match e.boundPositions.find? fun p => decide (maxPosition < p) with
      | some p => .error (.plan (.positionTooLarge p))
      | none => checkPositions es

/-- Looks for a row of another type, starting at row `i`. -/
def checkRows (type : RowType) (i : Nat) : List Row → Except QueryError Unit
  | [] => .ok ()
  | r :: rest =>
      if r.type.compatible type then checkRows type (i + 1) rest
      else .error (.plan (.rowOfOtherType i))

/-- The plan of given rows. -/
def ofRows (type : RowType) (rows : List Row) : Except QueryError Plan := do
  checkRows type 0 rows
  .ok (values type rows)

/-- The plan that scans an index. -/
def ofScan (ix : Index) (range : ScanRange) (ordering : List Bool) :
    Except QueryError Plan := do
  let s ← IndexScan.build ix range ordering
  checkPositions range.exprs
  .ok (scan s)

/-- The plan of the input rows for which a predicate is true. -/
def ofSelect (input : Plan) (predicate : Expr) : Except QueryError Plan := do
  checkPositions [predicate]
  let type ← predicate.type input.rowType
  if type = .bool then .ok (select input predicate)
  else .error (.plan (.predicateNotBool type))

/-- The plan of expressions on input rows. -/
def ofProject (input : Plan) (exprs : List Expr) : Except QueryError Plan := do
  checkPositions exprs
  let p ← Projection.build input.rowType exprs
  .ok (project input p)

/-- The plan of groups of input rows. -/
def ofAggregate (registry : Registry) (input : Plan) (fields : Nat)
    (calls : List (String × Option Nat)) : Except QueryError Plan := do
  let g ← Grouping.build registry input.rowType fields calls
  .ok (aggregate input g)

/-- The plan of the first input rows under a sort. -/
def ofSort (input : Plan) (s : Sorting) : Except QueryError Plan := do
  let s ← Sorting.build input.rowType s
  .ok (sort input s)

/-- The plan that runs its input once for every partition. -/
def ofMap (input : Plan) (m : Partitioning) : Except QueryError Plan :=
  if m.partitions.isEmpty then .error (.plan .noPartitions)
  else if maxPosition < m.position then .error (.plan (.positionTooLarge m.position))
  else if m.position ∈ input.boundPositions then .ok (map input m)
  else .error (.plan (.positionNotRead m.position))

end Plan
end OrderedQuery
