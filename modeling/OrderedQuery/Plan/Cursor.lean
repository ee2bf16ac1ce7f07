import OrderedQuery.Cursor.Aggregate
import OrderedQuery.Cursor.IndexScan
import OrderedQuery.Cursor.Parallel.Cursor
import OrderedQuery.Cursor.Project
import OrderedQuery.Cursor.Select
import OrderedQuery.Cursor.Sort
import OrderedQuery.Cursor.Values
import OrderedQuery.Plan.Basic

/-!
# The cursor of a plan

The cursor of a plan is put together from the cursors of its operators, from the leaves
upwards.
-/

namespace OrderedQuery
namespace Plan

/-- The states of the cursor of a plan. -/
def State : Plan → Type
  | values .. => ValuesCursor.State
  | scan _ => IndexScanCursor.State
  | select input _ => SelectCursor.State input.State
  | project input _ => ProjectCursor.State input.State
  | aggregate input _ => AggregateCursor.State input.State
  | sort input _ => SortCursor.State input.State
  | map input _ => ParallelCursor.State input.State

/-- The cursor of a plan. -/
def cursor : (p : Plan) → Machine p.State
  | values _ rows => ValuesCursor.machine rows
  | scan s => IndexScanCursor.machine s
  | select input predicate => SelectCursor.machine input.cursor predicate
  | project input p => ProjectCursor.machine input.cursor p
  | aggregate input g => AggregateCursor.machine input.cursor g
  | sort input s => SortCursor.machine input.cursor s
  | map input m => ParallelCursor.machine input.cursor m

end Plan
end OrderedQuery
