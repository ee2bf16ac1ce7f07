import OrderedQuery.Proofs.Cursor.Parallel.Turns
import OrderedQuery.Proofs.Plan.Protocol

/-!
# Every cursor of a plan answers for its workers

The operators other than a parallel map start no workers.  They pass calls on to their inputs
and return unless an aggregate function does not.  By induction on the plan its cursor keeps to
the discipline that is put together from those of the parallel maps in it, those in the plans of
workers included.
-/

namespace OrderedQuery

/-! ## Operators without input -/

namespace ValuesCursor

theorem openRun_idles : Leaf.Idles openRun := by
  intro ctx s w
  by_cases h : s.base.state = .idle
  · rw [openRun, CursorBase.beginOpen_eq_ok h]
    exact ⟨.refl w, .ok _⟩
  · rw [openRun, CursorBase.beginOpen_eq_error h]
    exact ⟨.refl w, .violation _ _⟩

theorem next_idles (rows : List Row) : Leaf.Idles (next rows) := by
  intro ctx s w
  by_cases h : s.base.state = .active
  · rw [next, CursorBase.checkNext_eq_ok h]
    exact ⟨.refl w, .ok _⟩
  · rw [next, CursorBase.checkNext_eq_error h]
    exact ⟨.refl w, .violation _ _⟩

theorem disciplined (rows : List Row) : (machine rows).Disciplined Leaf.discipline := by
  apply Leaf.disciplined (common rows) openRun_idles (next_idles rows)
  rw [closeRun_eq]
  exact Leaf.closeInPlace_idles id

end ValuesCursor

namespace IndexScanCursor

variable (scan : IndexScan)

theorem noAbort_traversal? (ctx : Context) (base : CursorBase) :
    NoAbort (traversal? scan ctx base) :=
  .bind base.noAbort_currentEnv fun env =>
    .bind (scan.keyRange_failsOnData env).noAbort fun _ => .ok _

theorem openRun_idles : Leaf.Idles (openRun scan) := by
  intro ctx s w
  by_cases h : s.base.state = .idle
  · have hresult := noAbort_traversal? scan ctx { s.base with state := .active }
    rw [openRun, CursorBase.beginOpen_eq_ok h]
    dsimp only
    generalize traversal? scan ctx { s.base with state := .active } = x at hresult
    cases x with
    | error e => exact ⟨.refl w, .error hresult.ne_aborted⟩
    | ok run => exact ⟨.refl w, .ok _⟩
  · rw [openRun, CursorBase.beginOpen_eq_error h]
    exact ⟨.refl w, .violation _ _⟩

theorem next_idles : Leaf.Idles (next scan) := by
  intro ctx s w
  by_cases h : s.base.state = .active
  · have hchecked := w.passes_check ctx
    have hresult := w.noAbort_check ctx
    rw [next, CursorBase.checkNext_eq_ok h]
    dsimp only
    generalize w.check ctx = checked at hchecked hresult
    obtain ⟨e | _, w'⟩ := checked
    · exact ⟨hchecked, .error hresult.ne_aborted⟩
    · dsimp only
      generalize advance ctx w' s.run = advanced
      obtain ⟨_ | ⟨key, value⟩, run⟩ := advanced
      · exact ⟨hchecked, .ok _⟩
      · have hread := hchecked.trans (w'.passes_recordRead 1)
        have hrow := (rowOf_failsOnData scan key).noAbort
        dsimp only
        generalize rowOf scan key = x at hrow
        cases x with
        | error e => exact ⟨hread, .error hrow.ne_aborted⟩
        | ok row => exact ⟨hread, .ok _⟩
  · rw [next, CursorBase.checkNext_eq_error h]
    exact ⟨.refl w, .violation _ _⟩

theorem disciplined : (machine scan).Disciplined Leaf.discipline := by
  apply Leaf.disciplined (common scan) (openRun_idles scan) (next_idles scan)
  rw [closeRun_eq]
  exact Leaf.closeInPlace_idles _

end IndexScanCursor

/-! ## Operators over an input -/

namespace SelectCursor

variable {σ : Type} {m : Machine σ} {D : Discipline σ} {access : Access} {ctx : Context}

theorem noAbort_passes (predicate : Expr) (base : CursorBase) (row : Row) :
    NoAbort (passes predicate base row) :=
  .bind base.noAbort_currentEnv fun env =>
    .bind (predicate.eval_failsOnData _ env).noAbort fun _ => .ok _

theorem search_relays (hm : m.Disciplined D) (predicate : Expr) (fuel : Nat) {s : State σ}
    {w : World} (h : D.Allows access ctx s.input w) :
    let o := search m predicate ctx fuel s w
    D.Leads access ctx s.input w o.state.input o.world ∧ NoAbort o.result := by
  induction fuel generalizing s w with
  | zero => exact ⟨.refl h, .stalled⟩
  | succ fuel ih =>
      obtain ⟨hnext, hresult⟩ := hm.next h
      rw [search]
      dsimp only [Node.onInput]
      generalize m.next ctx s.input w = o at hnext hresult
      obtain ⟨e | row, input, w'⟩ := o
      · exact ⟨hnext, .error hresult.ne_aborted⟩
      · cases row with
        | none => exact ⟨hnext, .ok _⟩
        | some row =>
            have hpassed := noAbort_passes predicate s.base row
            dsimp only
            generalize passes predicate s.base row = x at hpassed
            cases x with
            | error e => exact ⟨hnext, .error hpassed.ne_aborted⟩
            | ok passed =>
                cases passed with
                | true => exact ⟨hnext, .ok _⟩
                | false =>
                    exact (ih (s := ⟨s.base, input, s.run⟩) hnext.allows).imp_left hnext.trans

theorem next_relays (hm : m.Disciplined D) (predicate : Expr) :
    Node.Relays D (next m predicate) := by
  intro access ctx s w h
  by_cases hs : s.base.state = .active
  · rw [next, CursorBase.checkNext_eq_ok hs]
    exact search_relays hm predicate _ h
  · rw [next, CursorBase.checkNext_eq_error hs]
    exact ⟨.refl h, .violation _ _⟩

end SelectCursor

namespace ProjectCursor

variable {σ : Type} {m : Machine σ} {D : Discipline σ}

theorem next_relays (hm : m.Disciplined D) (p : Projection) : Node.Relays D (next m p) := by
  intro access ctx s w h
  by_cases hs : s.base.state = .active
  · obtain ⟨hnext, hresult⟩ := hm.next h
    rw [next, CursorBase.checkNext_eq_ok hs]
    dsimp only [Node.onInput]
    generalize m.next ctx s.input w = o at hnext hresult
    obtain ⟨e | row, input, w'⟩ := o
    · exact ⟨hnext, .error hresult.ne_aborted⟩
    · cases row with
      | none => exact ⟨hnext, .ok _⟩
      | some row =>
          have hrow : NoAbort (rowOf p s.base row) :=
            .bind s.base.noAbort_currentEnv fun env => (p.apply_failsOnData env row).noAbort
          dsimp only
          generalize rowOf p s.base row = x at hrow
          cases x with
          | error e => exact ⟨hnext, .error hrow.ne_aborted⟩
          | ok row => exact ⟨hnext, .ok _⟩
  · rw [next, CursorBase.checkNext_eq_error hs]
    exact ⟨.refl h, .violation _ _⟩

end ProjectCursor

namespace AggregateCursor

variable {σ : Type} {m : Machine σ} {D : Discipline σ} {access : Access} {ctx : Context}
  {g : Grouping}

/-- Taking a row fails without ending the thread. -/
theorem take_ne_aborted (hg : g.Returns) (row : Row) (p : Progress) :
    (take g row p).1 ≠ .failed .aborted := by
  have hcalls : ∀ c ∈ g.calls, ∀ state v,
      FailsWith (· ≠ .aborted) (c.function.update state v).1 :=
    fun c hc state v => noAbort_iff.mp (hg c hc state v)
  exact fun habort => take_failsWith (fun _ he => he.ne_aborted) hcalls row p _ habort rfl

theorem flush_spec (g : Grouping) (s : State σ) (w : World) :
    (flush g s w).world = w ∧ NoAbort (flush g s w).result := by
  have hresult := (emit_failsOnData g s.run).noAbort
  rw [flush]
  generalize emit g s.run = x at hresult
  obtain ⟨e | row, run⟩ := x
  · exact ⟨rfl, .error hresult.ne_aborted⟩
  · exact ⟨rfl, .ok _⟩

theorem search_relays (hm : m.Disciplined D) (hg : g.Returns) (fuel : Nat) {s : State σ}
    {w : World} (h : D.Allows access ctx s.input w) :
    let o := search m g ctx fuel s w
    D.Leads access ctx s.input w o.state.input o.world ∧ NoAbort o.result := by
  induction fuel generalizing s w with
  | zero => exact ⟨.refl h, .stalled⟩
  | succ fuel ih =>
      obtain ⟨hnext, hresult⟩ := hm.next h
      rw [search]
      dsimp only [Node.onInput]
      generalize m.next ctx s.input w = o at hnext hresult
      obtain ⟨e | row, input, w'⟩ := o
      · exact ⟨hnext, .error hresult.ne_aborted⟩
      · cases row with
        | none =>
            dsimp only
            obtain ⟨hworld, hflushed⟩ :=
              flush_spec g ⟨s.base, input, { s.run with inputDone := true }⟩ w'
            rw [flush_input, hworld]
            exact ⟨hnext, hflushed⟩
        | some row =>
            have htaken := take_ne_aborted hg row s.run
            dsimp only
            generalize take g row s.run = x at htaken
            obtain ⟨step, run⟩ := x
            cases step with
            | more => exact (ih (s := ⟨s.base, input, run⟩) hnext.allows).imp_left hnext.trans
            | finished row => exact ⟨hnext, .ok _⟩
            | failed e => exact ⟨hnext, .error fun he => htaken (congrArg Step.failed he)⟩

theorem next_relays (hm : m.Disciplined D) (hg : g.Returns) : Node.Relays D (next m g) := by
  intro access ctx s w h
  by_cases hs : s.base.state = .active
  · rw [next, CursorBase.checkNext_eq_ok hs]
    dsimp only
    by_cases hdone : s.run.inputDone = true
    · obtain ⟨hworld, hflushed⟩ := flush_spec g s w
      rw [if_pos hdone, flush_input, hworld]
      exact ⟨.refl h, hflushed⟩
    · rw [if_neg hdone]
      exact search_relays hm hg _ h
  · rw [next, CursorBase.checkNext_eq_error hs]
    exact ⟨.refl h, .violation _ _⟩

end AggregateCursor

namespace SortCursor

variable {σ : Type} {m : Machine σ} {D : Discipline σ} {access : Access} {ctx : Context}

theorem fill_leads (hm : m.Disciplined D) (sorting : Sorting) (fuel : Nat) (held : List Row)
    {input : σ} {w : World} (h : D.Allows access ctx input w) :
    let o := fill m sorting ctx fuel held input w
    D.Leads access ctx input w o.state o.world ∧ NoAbort o.result := by
  induction fuel generalizing held input w with
  | zero => exact ⟨.refl h, .stalled⟩
  | succ fuel ih =>
      obtain ⟨hnext, hresult⟩ := hm.next h
      rw [fill]
      dsimp only
      generalize m.next ctx input w = o at hnext hresult
      obtain ⟨e | row, input', w'⟩ := o
      · exact ⟨hnext, .error hresult.ne_aborted⟩
      · cases row with
        | none => exact ⟨hnext, .ok _⟩
        | some row =>
            have hchecked := hnext.passes (w'.passes_check ctx)
            have hresult := w'.noAbort_check ctx
            dsimp only
            generalize w'.check ctx = checked at hchecked hresult
            obtain ⟨e | _, w''⟩ := checked
            · exact ⟨hchecked, .error hresult.ne_aborted⟩
            · exact (ih _ hchecked.allows).imp_left hchecked.trans

theorem sorted_respects (hm : m.Disciplined D) (sorting : Sorting) :
    D.Respects (sorted m sorting) := by
  intro access ctx input w h
  have hlimit := (sorting.checkLimit_failsOnData ctx.config.maxRowsInMemory).noAbort
  rw [sorted]
  generalize sorting.checkLimit ctx.config.maxRowsInMemory = x at hlimit
  cases x with
  | error e => exact ⟨.refl h, .error hlimit.ne_aborted⟩
  | ok _ =>
      obtain ⟨hopened, hresult⟩ := hm.openRun h
      dsimp only
      generalize m.openRun ctx input w = o at hopened hresult
      obtain ⟨e | _, input', w'⟩ := o
      · exact ⟨hopened, .error hresult.ne_aborted⟩
      · exact (fill_leads hm sorting _ [] hopened.allows).imp_left hopened.trans

theorem openRun_relays (hm : m.Disciplined D) (sorting : Sorting) :
    Node.Relays D (openRun m sorting) := by
  intro access ctx s w h
  by_cases hs : s.base.state = .idle
  · obtain ⟨hsorted, hresult⟩ := sorted_respects hm sorting h
    rw [openRun, CursorBase.beginOpen_eq_ok hs]
    dsimp only
    generalize sorted m sorting ctx s.input w = o at hsorted hresult
    obtain ⟨e | rows, input, w'⟩ := o
    · exact ⟨hsorted, .error hresult.ne_aborted⟩
    · exact ⟨hsorted, .ok _⟩
  · rw [openRun, CursorBase.beginOpen_eq_error hs]
    exact ⟨.refl h, .violation _ _⟩

theorem next_relays : Node.Relays D next := by
  intro access ctx s w h
  by_cases hs : s.base.state = .active
  · rw [next, CursorBase.checkNext_eq_ok hs]
    exact ⟨.refl h, .ok _⟩
  · rw [next, CursorBase.checkNext_eq_error hs]
    exact ⟨.refl h, .violation _ _⟩

end SortCursor

/-! ## Plans -/

namespace Plan

/-- What the cursor of a plan answers for. -/
def discipline : (p : Plan) → Discipline p.State
  | values .. => (Leaf.discipline : Discipline ValuesCursor.State)
  | scan _ => (Leaf.discipline : Discipline IndexScanCursor.State)
  | select input _ => Node.discipline input.discipline
  | project input _ => Node.discipline input.discipline
  | aggregate input _ => Node.discipline input.discipline
  | sort input _ => Node.discipline input.discipline
  | map input p => ParallelCursor.discipline input.discipline p

theorem cursor_disciplined {p : Plan} (hp : p.Returns) : p.cursor.Disciplined p.discipline := by
  induction p with
  | values type rows => exact ValuesCursor.disciplined rows
  | scan s => exact IndexScanCursor.disciplined s
  | select input predicate ih =>
      have hinput := ih hp
      exact Node.disciplined (SelectCursor.common _ predicate) hinput
        (SelectCursor.obeys input.cursor_obeys predicate).answers
        (Node.openRun_relays hinput id) (SelectCursor.next_relays hinput predicate)
  | project input p ih =>
      have hinput := ih hp
      exact Node.disciplined (ProjectCursor.common _ p) hinput
        (ProjectCursor.obeys input.cursor_obeys p).answers
        (Node.openRun_relays hinput id) (ProjectCursor.next_relays hinput p)
  | aggregate input g ih =>
      have hinput := ih hp.1
      exact Node.disciplined (AggregateCursor.common _ g) hinput
        (AggregateCursor.obeys input.cursor_obeys g).answers
        (Node.openRun_relays hinput _) (AggregateCursor.next_relays hinput hp.2)
  | sort input s ih =>
      have hinput := ih hp
      exact Node.disciplined (SortCursor.common _ s) hinput
        (SortCursor.obeys input.cursor_obeys s).answers
        (SortCursor.openRun_relays hinput s) SortCursor.next_relays
  | map input p ih => exact ParallelCursor.disciplined (ih hp) p

end Plan
end OrderedQuery
