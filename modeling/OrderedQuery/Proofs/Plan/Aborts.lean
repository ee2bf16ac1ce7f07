import OrderedQuery.Proofs.Plan.Failures

/-!
# Who can end a thread from within

Whatever fails on data goes on with an error.  Only an aggregate function can end the thread that
runs it, and those that are built in do not.
-/

namespace OrderedQuery

variable {α β : Type}

/-- The thread goes on, with or without an error. -/
def NoAbort (result : Except QueryError α) : Prop := result ≠ .error .aborted

namespace NoAbort

theorem ok (a : α) : NoAbort (.ok a : Except QueryError α) := nofun

theorem error {e : QueryError} (h : e ≠ .aborted) : NoAbort (.error e : Except QueryError α) :=
  fun habort => h (Except.error.inj habort)

theorem violation (b : CursorBase) (action : String) :
    NoAbort (.error (b.violation action) : Except QueryError α) := nofun

theorem stalled : NoAbort (.error .stalled : Except QueryError α) := nofun

theorem ne_aborted {e : QueryError} (h : NoAbort (.error e : Except QueryError α)) :
    e ≠ .aborted := by
  rintro rfl
  exact h rfl

theorem of_error {e : QueryError} (h : NoAbort (.error e : Except QueryError α)) :
    NoAbort (.error e : Except QueryError β) :=
  error h.ne_aborted

/-- Two computations, one after the other. -/
theorem bind {x : Except QueryError α} {f : α → Except QueryError β} (hx : NoAbort x)
    (hf : ∀ a, NoAbort (f a)) : NoAbort (x >>= f) := by
  cases x with
  | error e => exact error hx.ne_aborted
  | ok a => exact hf a

theorem map {x : Except QueryError α} (hx : NoAbort x) (f : α → β) : NoAbort (x.map f) := by
  cases x with
  | error e => exact error hx.ne_aborted
  | ok a => exact ok (f a)

theorem of_map {x : Except QueryError α} {f : α → β} (h : NoAbort (x.map f)) : NoAbort x := by
  cases x with
  | error e => exact error h.ne_aborted
  | ok a => exact ok a

theorem firstError {a b : Except QueryError Unit} (ha : NoAbort a) (hb : NoAbort b) :
    NoAbort (firstError a b) := by
  cases a with
  | error e => exact ha
  | ok _ => exact hb

end NoAbort

theorem noAbort_iff {x : Except QueryError α} : NoAbort x ↔ FailsWith (· ≠ .aborted) x := by
  constructor
  · rintro h e rfl
    exact h.ne_aborted
  · intro h habort
    exact h _ habort rfl

theorem QueryError.OfData.ne_aborted {e : QueryError} (h : e.OfData) : e ≠ .aborted := by
  rintro rfl
  exact h

theorem FailsWith.noAbort {x : Except QueryError α} (h : FailsOnData x) : NoAbort x :=
  noAbort_iff.mpr (h.mono fun _ he => he.ne_aborted)

theorem CursorBase.noAbort_currentEnv (b : CursorBase) : NoAbort b.currentEnv := by
  unfold currentEnv
  split <;> exact nofun

theorem BindingSource.noAbort_take (source : BindingSource) : NoAbort source.take.1 := by
  unfold take
  split
  · exact nofun
  · split <;> exact nofun
  · exact nofun

/-! ## Aggregate functions -/

/-- The function accepts a value or refuses it, and returns. -/
def AggregateFunction.Returns (f : AggregateFunction) : Prop :=
  ∀ state v, NoAbort (f.update state v).1

/-- The functions that are there from the start return. -/
theorem AggregateFunction.returns_of_mem_builtins {f : AggregateFunction} (h : f ∈ builtins) :
    f.Returns :=
  fun state v => (update_failsOnData h state v).noAbort

namespace Grouping

/-- Every function that is called returns. -/
def Returns (g : Grouping) : Prop := ∀ c ∈ g.calls, c.function.Returns

end Grouping

namespace Plan

/-- Every aggregate function of a plan returns. -/
def Returns : Plan → Prop
  | values .. | scan _ => True
  | aggregate input g => input.Returns ∧ g.Returns
  | select input _ | project input _ | sort input _ | map input _ => input.Returns

end Plan
end OrderedQuery
