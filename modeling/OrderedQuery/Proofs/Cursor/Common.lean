import OrderedQuery.Cursor.Aggregate
import OrderedQuery.Cursor.IndexScan
import OrderedQuery.Cursor.Parallel.Cursor
import OrderedQuery.Cursor.Project
import OrderedQuery.Cursor.Select
import OrderedQuery.Cursor.Sort
import OrderedQuery.Cursor.Values

/-!
# What operators have in common

An operator defines how its cursor opens a run and reads from it.  The rest is the same for all
leaves, but for the closing of a run, and for all nodes.  `Leaf.Common` and `Node.Common` say that
a machine does the rest as the others do; what follows from it is shown once for all of them.
-/

namespace OrderedQuery

variable {ρ σ : Type}

/-- A machine does what all leaves do.  New leaves are called `name`, and have the run `start`. -/
structure Leaf.Common (m : Machine (Leaf ρ)) (name : String) (start : ρ) : Prop where
  base : m.base = Leaf.base
  fresh : ∀ source, m.fresh source = ⟨.start name, source, start⟩
  openBindings : m.openBindings = Leaf.openBindings
  nextBindings : m.nextBindings = Leaf.nextBindings
  closeBindings : m.closeBindings = Leaf.closeBindings
  destroy : m.destroy = Leaf.destroy m.closeRun

/-- A machine does what all nodes over the input `m` do.  New nodes are called `name`, and have the
run `start`; closing a run does `clear` to it. -/
structure Node.Common (M : Machine (Node ρ σ)) (m : Machine σ) (name : String) (start : ρ)
    (clear : ρ → ρ) : Prop where
  base : M.base = Node.base
  fresh : ∀ source, M.fresh source = ⟨.start name, m.fresh source, start⟩
  openBindings : M.openBindings = Node.openBindings m
  nextBindings : M.nextBindings = Node.nextBindings m
  closeBindings : M.closeBindings = Node.closeBindings m
  closeRun : M.closeRun = Node.closeRun m clear
  destroy : M.destroy = Node.destroy m (Node.closeRun m clear)

theorem ValuesCursor.common (rows : List Row) : Leaf.Common (machine rows) "Values" 0 :=
  ⟨rfl, fun _ => rfl, rfl, rfl, rfl, rfl⟩

theorem IndexScanCursor.common (scan : IndexScan) :
    Leaf.Common (machine scan) "IndexScan" none :=
  ⟨rfl, fun _ => rfl, rfl, rfl, rfl, rfl⟩

theorem ParallelCursor.common (m : Machine σ) (p : Partitioning) :
    Leaf.Common (machine m p) "MapParallel" none :=
  ⟨rfl, fun _ => rfl, rfl, rfl, rfl, rfl⟩

theorem SelectCursor.common (m : Machine σ) (predicate : Expr) :
    Node.Common (machine m predicate) m "Select" () id :=
  ⟨rfl, fun _ => rfl, rfl, rfl, rfl, rfl, rfl⟩

theorem ProjectCursor.common (m : Machine σ) (p : Projection) :
    Node.Common (machine m p) m "Project" () id :=
  ⟨rfl, fun _ => rfl, rfl, rfl, rfl, rfl, rfl⟩

theorem AggregateCursor.common (m : Machine σ) (g : Grouping) :
    Node.Common (machine m g) m "Aggregate" .start clear :=
  ⟨rfl, fun _ => rfl, rfl, rfl, rfl, rfl, rfl⟩

theorem SortCursor.common (m : Machine σ) (sorting : Sorting) :
    Node.Common (machine m sorting) m "Sort" [] fun _ => [] :=
  ⟨rfl, fun _ => rfl, rfl, rfl, rfl, rfl, rfl⟩

end OrderedQuery
