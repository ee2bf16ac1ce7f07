import OrderedQuery.Plan.Cursor
import OrderedQuery.Proofs.Cursor.Parallel.Invariants
import OrderedQuery.Proofs.Query.Evolution

/-!
# Every cursor lets the world evolve

No call of a cursor does anything to the world but a number of actions, in whatever state the
cursor is.  By induction on the plan this holds of the cursors of all plans; for a parallel map it
holds of every step of a worker, and so of whole runs.

Without workers, time passes and rows are counted, and that is all.  So what is said about the
other operators is said of any relation between worlds that allows for this much.

Where an operation asks another one first, a lemma called `…_rest` says that also what it does
afterwards is a number of actions.
-/

namespace OrderedQuery

open World (Lapse)

/-- An operation leads from every world to one that is related to it. -/
def Action.Moves {σ α : Type} (op : Action σ α) (E : World → World → Prop) : Prop :=
  ∀ ctx s w, E w (op ctx s w).world

/-- All operations of a cursor lead from every world to one that is related to it. -/
structure Machine.Moves {σ : Type} (m : Machine σ) (E : World → World → Prop) : Prop where
  openRun : m.openRun.Moves E
  next : m.next.Moves E
  closeRun : m.closeRun.Moves E
  destroy : m.destroy.Moves E
  openBindings : m.openBindings.Moves E
  nextBindings : m.nextBindings.Moves E
  closeBindings : m.closeBindings.Moves E
  letGo : ∀ s w, E w (m.letGo s w)

/-- An operation that lets the world evolve. -/
abbrev Action.Evolving {σ α : Type} (op : Action σ α) : Prop := op.Moves World.Evolves

/-- All operations of a cursor let the world evolve. -/
abbrev Machine.Evolving {σ : Type} (m : Machine σ) : Prop := m.Moves World.Evolves

variable {E : World → World → Prop} [Lapse E]

/-! ## Driving a cursor -/

namespace Machine.Moves

variable {σ : Type} {m : Machine σ}

theorem openTop_rest (hm : m.Moves E) (ctx : Context) (s : σ) (w : World) :
    E (m.openBindings ctx s w).world (m.openTop ctx s w).world := by
  rw [openTop]
  generalize m.openBindings ctx s w = o
  obtain ⟨_ | _, s', w'⟩ := o
  · exact Lapse.refl _
  · have hnext := hm.nextBindings ctx s' w'
    dsimp only
    generalize m.nextBindings ctx s' w' = o at hnext
    obtain ⟨_ | _ | env, s'', w''⟩ := o
    · exact hnext
    · exact hnext
    · exact Lapse.trans hnext (hm.openRun ctx s'' w'')

theorem openTop (hm : m.Moves E) : m.openTop.Moves E := fun ctx s w =>
  Lapse.trans (hm.openBindings ctx s w) (hm.openTop_rest ctx s w)

theorem closeTop (hm : m.Moves E) : m.closeTop.Moves E := fun ctx s w =>
  Lapse.trans (hm.closeRun ctx s w) (hm.closeBindings ctx _ _)

end Machine.Moves

/-! ## Leaves and nodes -/

namespace Leaf

variable {ρ : Type}

theorem openBindings_evolves : (openBindings (ρ := ρ)).Moves E := by
  intro ctx s w
  rw [openBindings]
  split <;> exact Lapse.refl _

theorem nextBindings_evolves : (nextBindings (ρ := ρ)).Moves E := by
  intro ctx s w
  rw [nextBindings]
  split
  · exact Lapse.refl _
  · split <;> exact Lapse.refl _

theorem closeBindings_evolves : (closeBindings (ρ := ρ)).Moves E := by
  intro ctx s w
  rw [closeBindings]
  split <;> exact Lapse.refl _

theorem destroy_evolves {close : Action (Leaf ρ) Unit} (hclose : close.Moves E) :
    (destroy close).Moves E := by
  intro ctx s w
  rw [destroy]
  split
  · exact Lapse.refl _
  · exact hclose ctx s w

end Leaf

namespace Node

variable {ρ σ : Type} {m : Machine σ}

theorem openBindings_evolves (hm : m.Moves E) : (openBindings (ρ := ρ) m).Moves E := by
  intro ctx s w
  rw [openBindings]
  split
  · exact Lapse.refl _
  · exact hm.openBindings ctx s.input w

theorem nextBindings_evolves (hm : m.Moves E) : (nextBindings (ρ := ρ) m).Moves E := by
  intro ctx s w
  rw [nextBindings]
  split
  · exact Lapse.refl _
  · dsimp only [onInput]
    split <;> exact hm.nextBindings ctx s.input w

theorem closeBindings_evolves (hm : m.Moves E) : (closeBindings (ρ := ρ) m).Moves E := by
  intro ctx s w
  rw [closeBindings]
  split
  · exact Lapse.refl _
  · exact hm.closeBindings ctx s.input w

theorem openRun_evolves (hm : m.Moves E) (run : ρ → ρ) : (openRun m run).Moves E := by
  intro ctx s w
  rw [openRun]
  split
  · exact Lapse.refl _
  · dsimp only
    split <;> exact hm.openRun ctx s.input w

theorem closeRun_evolves (hm : m.Moves E) (run : ρ → ρ) : (closeRun m run).Moves E := by
  intro ctx s w
  rw [closeRun]
  split
  · exact Lapse.refl _
  · exact hm.closeRun ctx s.input w

theorem destroy_evolves (hm : m.Moves E) {close : Action (Node ρ σ) Unit}
    (hclose : close.Moves E) : (destroy m close).Moves E := by
  intro ctx s w
  rw [destroy]
  split
  · exact Lapse.refl _
  · exact Lapse.trans (hclose ctx s w) (hm.destroy ctx _ _)

end Node

/-! ## Operators -/

namespace ValuesCursor

theorem closeRun_evolves : closeRun.Moves E := by
  intro ctx s w
  rw [closeRun]
  split <;> exact Lapse.refl _

theorem evolving (rows : List Row) : (machine rows).Moves E where
  openRun := by
    intro ctx s w
    dsimp only [machine]
    rw [openRun]
    split <;> exact Lapse.refl _
  next := by
    intro ctx s w
    dsimp only [machine]
    rw [next]
    split <;> exact Lapse.refl _
  closeRun := closeRun_evolves
  destroy := Leaf.destroy_evolves closeRun_evolves
  openBindings := Leaf.openBindings_evolves
  nextBindings := Leaf.nextBindings_evolves
  closeBindings := Leaf.closeBindings_evolves
  letGo _ _ := Lapse.refl _

end ValuesCursor

namespace IndexScanCursor

theorem closeRun_evolves : closeRun.Moves E := by
  intro ctx s w
  rw [closeRun]
  split <;> exact Lapse.refl _

theorem next_evolves (scan : IndexScan) : (next scan).Moves E := by
  intro ctx s w
  rw [next]
  split
  · exact Lapse.refl _
  · have hchecked := Lapse.check (E := E) w ctx
    generalize w.check ctx = x at hchecked
    obtain ⟨_ | _, w'⟩ := x
    · exact hchecked
    · dsimp only
      split
      · exact hchecked
      · have hread := Lapse.trans hchecked (Lapse.recordRead w' 1)
        split <;> exact hread

theorem evolving (scan : IndexScan) : (machine scan).Moves E where
  openRun := by
    intro ctx s w
    dsimp only [machine]
    rw [openRun]
    split
    · exact Lapse.refl _
    · split <;> exact Lapse.refl _
  next := next_evolves scan
  closeRun := closeRun_evolves
  destroy := Leaf.destroy_evolves closeRun_evolves
  openBindings := Leaf.openBindings_evolves
  nextBindings := Leaf.nextBindings_evolves
  closeBindings := Leaf.closeBindings_evolves
  letGo _ _ := Lapse.refl _

end IndexScanCursor

namespace SelectCursor

variable {σ : Type} {m : Machine σ}

theorem search_rest (predicate : Expr) (ctx : Context) (fuel : Nat)
    (hrest : ∀ s (w : World), E w (search m predicate ctx fuel s w).world) (s : State σ)
    (w : World) :
    E (m.next ctx s.input w).world (search m predicate ctx (fuel + 1) s w).world := by
  rw [search]
  dsimp only [Node.onInput]
  generalize m.next ctx s.input w = o
  obtain ⟨_ | _ | row, input, w'⟩ := o
  · exact Lapse.refl _
  · exact Lapse.refl _
  · dsimp only
    split
    · exact Lapse.refl _
    · exact Lapse.refl _
    · exact hrest _ w'

theorem search_evolves (hm : m.Moves E) (predicate : Expr) (ctx : Context) (fuel : Nat)
    (s : State σ) (w : World) : E w (search m predicate ctx fuel s w).world := by
  induction fuel generalizing s w with
  | zero => exact Lapse.refl _
  | succ fuel ih =>
      exact Lapse.trans (hm.next ctx s.input w) (search_rest predicate ctx fuel ih s w)

theorem evolving (hm : m.Moves E) (predicate : Expr) : (machine m predicate).Moves E where
  openRun := Node.openRun_evolves hm id
  next := by
    intro ctx s w
    dsimp only [machine]
    rw [next]
    split
    · exact Lapse.refl _
    · exact search_evolves hm predicate ctx _ s w
  closeRun := Node.closeRun_evolves hm id
  destroy := Node.destroy_evolves hm (Node.closeRun_evolves hm id)
  openBindings := Node.openBindings_evolves hm
  nextBindings := Node.nextBindings_evolves hm
  closeBindings := Node.closeBindings_evolves hm
  letGo s w := hm.letGo s.input w

end SelectCursor

namespace ProjectCursor

variable {σ : Type} {m : Machine σ}

theorem next_evolves (hm : m.Moves E) (p : Projection) : (next m p).Moves E := by
  intro ctx s w
  rw [next]
  split
  · exact Lapse.refl _
  · have hnext := hm.next ctx s.input w
    dsimp only [Node.onInput]
    generalize m.next ctx s.input w = o at hnext
    obtain ⟨_ | _ | row, input, w'⟩ := o
    · exact hnext
    · exact hnext
    · dsimp only
      split <;> exact hnext

theorem evolving (hm : m.Moves E) (p : Projection) : (machine m p).Moves E where
  openRun := Node.openRun_evolves hm id
  next := next_evolves hm p
  closeRun := Node.closeRun_evolves hm id
  destroy := Node.destroy_evolves hm (Node.closeRun_evolves hm id)
  openBindings := Node.openBindings_evolves hm
  nextBindings := Node.nextBindings_evolves hm
  closeBindings := Node.closeBindings_evolves hm
  letGo s w := hm.letGo s.input w

end ProjectCursor

namespace AggregateCursor

variable {σ : Type} {m : Machine σ}

theorem flush_evolves (g : Grouping) (s : State σ) (w : World) :
    E w (flush g s w).world := by
  rw [flush]
  split <;> exact Lapse.refl _

theorem search_rest (g : Grouping) (ctx : Context) (fuel : Nat)
    (hrest : ∀ s (w : World), E w (search m g ctx fuel s w).world) (s : State σ)
    (w : World) : E (m.next ctx s.input w).world (search m g ctx (fuel + 1) s w).world := by
  rw [search]
  dsimp only [Node.onInput]
  generalize m.next ctx s.input w = o
  obtain ⟨_ | _ | row, input, w'⟩ := o
  · exact Lapse.refl _
  · exact flush_evolves g _ w'
  · dsimp only
    split
    · exact hrest _ w'
    · exact Lapse.refl _
    · exact Lapse.refl _

theorem search_evolves (hm : m.Moves E) (g : Grouping) (ctx : Context) (fuel : Nat)
    (s : State σ) (w : World) : E w (search m g ctx fuel s w).world := by
  induction fuel generalizing s w with
  | zero => exact Lapse.refl _
  | succ fuel ih => exact Lapse.trans (hm.next ctx s.input w) (search_rest g ctx fuel ih s w)

theorem evolving (hm : m.Moves E) (g : Grouping) : (machine m g).Moves E where
  openRun := Node.openRun_evolves hm fun _ => Progress.start
  next := by
    intro ctx s w
    dsimp only [machine]
    rw [next]
    split
    · exact Lapse.refl _
    · split
      · exact flush_evolves g s w
      · exact search_evolves hm g ctx _ s w
  closeRun := Node.closeRun_evolves hm clear
  destroy := Node.destroy_evolves hm (Node.closeRun_evolves hm clear)
  openBindings := Node.openBindings_evolves hm
  nextBindings := Node.nextBindings_evolves hm
  closeBindings := Node.closeBindings_evolves hm
  letGo s w := hm.letGo s.input w

end AggregateCursor

namespace SortCursor

variable {σ : Type} {m : Machine σ}

theorem fill_rest (sorting : Sorting) (ctx : Context) (fuel : Nat)
    (hrest : ∀ held input (w : World), E w (fill m sorting ctx fuel held input w).world)
    (held : List Row) (input : σ) (w : World) :
    E (m.next ctx input w).world (fill m sorting ctx (fuel + 1) held input w).world := by
  rw [fill]
  generalize m.next ctx input w = o
  obtain ⟨_ | _ | row, input, w'⟩ := o
  · exact Lapse.refl _
  · exact Lapse.refl _
  · have hchecked := Lapse.check (E := E) w' ctx
    dsimp only
    generalize w'.check ctx = x at hchecked
    obtain ⟨_ | _, w''⟩ := x
    · exact hchecked
    · exact Lapse.trans hchecked (hrest _ input w'')

theorem fill_evolves (hm : m.Moves E) (sorting : Sorting) (ctx : Context) (fuel : Nat)
    (held : List Row) (input : σ) (w : World) :
    E w (fill m sorting ctx fuel held input w).world := by
  induction fuel generalizing held input w with
  | zero => exact Lapse.refl _
  | succ fuel ih =>
      exact Lapse.trans (hm.next ctx input w) (fill_rest sorting ctx fuel ih held input w)

theorem sorted_evolves (hm : m.Moves E) (sorting : Sorting) : (sorted m sorting).Moves E := by
  intro ctx input w
  rw [sorted]
  split
  · exact Lapse.refl _
  · have hopened := hm.openRun ctx input w
    dsimp only
    generalize m.openRun ctx input w = o at hopened
    obtain ⟨_ | _, input, w'⟩ := o
    · exact hopened
    · exact Lapse.trans hopened (fill_evolves hm sorting ctx _ [] input w')

theorem openRun_evolves (hm : m.Moves E) (sorting : Sorting) :
    (openRun m sorting).Moves E := by
  intro ctx s w
  rw [openRun]
  split
  · exact Lapse.refl _
  · have hsorted := sorted_evolves hm sorting ctx s.input w
    dsimp only
    split <;> exact hsorted

theorem evolving (hm : m.Moves E) (sorting : Sorting) : (machine m sorting).Moves E where
  openRun := openRun_evolves hm sorting
  next := by
    intro ctx s w
    dsimp only [machine]
    rw [next]
    split <;> exact Lapse.refl _
  closeRun := Node.closeRun_evolves hm fun _ => []
  destroy := Node.destroy_evolves hm (Node.closeRun_evolves hm fun _ => [])
  openBindings := Node.openBindings_evolves hm
  nextBindings := Node.nextBindings_evolves hm
  closeBindings := Node.closeBindings_evolves hm
  letGo s w := hm.letGo s.input w

end SortCursor

/-! ## Workers -/

namespace Worker

variable {σ : Type} {m : Machine σ}

theorem stop_evolves (hm : m.Evolving) (k : Worker σ) (cursor : σ) (e : QueryError) (w : World) :
    w.Evolves (k.stop m cursor e w).2 := by
  rw [stop]
  split
  · exact (hm.letGo cursor w).trans ((m.letGo cursor w).evolves_rollback k.context)
  · exact .refl

theorem openCursor_rest (hm : m.Evolving) (k : Worker σ) (w : World) :
    (m.openTop k.context k.cursor w).world.Evolves (k.openCursor m w).2 := by
  rw [openCursor]
  generalize m.openTop k.context k.cursor w = o
  obtain ⟨_ | _ | _, cursor, w'⟩ := o
  · exact stop_evolves hm k cursor _ w'
  · exact .refl
  · exact .refl

theorem pull_rest (hm : m.Evolving) (k : Worker σ) (w : World) :
    (m.next k.context k.cursor w).world.Evolves (k.pull m w).2 := by
  rw [pull]
  generalize m.next k.context k.cursor w = o
  obtain ⟨_ | _ | row, cursor, w'⟩ := o
  · exact stop_evolves hm k cursor _ w'
  · exact .refl
  · have hchecked := w'.evolves_check k.context
    dsimp only
    generalize w'.check k.context = x at hchecked
    obtain ⟨_ | _, w''⟩ := x <;> exact hchecked

theorem endTransaction_evolves (k : Worker σ) (result : Except QueryError Unit) (w : World) :
    w.Evolves (k.endTransaction result w).2 := by
  cases result with
  | ok _ =>
      exact (w.evolves_commitWork k.context).trans (World.evolves_recordFinished _)
  | error e =>
      exact (w.evolves_rollback k.context).trans (World.evolves_recordFinished _)

theorem beginTransaction_evolves (k : Worker σ) (w : World) :
    w.Evolves (k.beginTransaction w).2 := by
  have hbegun := w.evolves_beginWork k.context
  rw [beginTransaction]
  generalize w.beginWork k.context = x at hbegun
  obtain ⟨_ | _, w'⟩ := x
  · exact hbegun.trans w'.evolves_recordFinished
  · exact hbegun

theorem step_evolves (hm : m.Evolving) (i : Nat) (k : Worker σ) (ch : Channel) (w : World) :
    w.Evolves (k.step m i ch w).2.2 := by
  rw [step]
  cases k.phase with
  | begin => exact k.beginTransaction_evolves w
  | opening => exact (hm.openTop k.context k.cursor w).trans (k.openCursor_rest hm w)
  | pulling => exact (hm.next k.context k.cursor w).trans (k.pull_rest hm w)
  | sending row =>
      dsimp only
      split <;> exact .refl
  | closing pumped =>
      exact (hm.closeTop k.context k.cursor w).trans (hm.destroy k.context _ _)
  | ending result => exact k.endTransaction_evolves result w
  | _ => exact .refl

end Worker

/-! ## Runs -/

namespace Run

variable {σ : Type} {m : Machine σ}

theorem stepWorker_evolves (hm : m.Evolving) (i : Nat) (r : Run σ) (w : World) :
    w.Evolves (r.stepWorker m i w).2 := by
  rw [stepWorker]
  split
  · exact .refl
  · exact Worker.step_evolves hm i _ r.channel w

/-- Whatever a run does, the world evolves from what it was. -/
theorem evolves_invariant (hm : m.Evolving) (w : World) :
    Invariant m fun _ w' => w.Evolves w' where
  step h i := h.trans (stepWorker_evolves hm i _ _)
  draw h := h.trans (World.evolves_draw _)

theorem mingle_evolves (hm : m.Evolving) (fuel : Nat) (r : Run σ) (w : World) :
    w.Evolves (r.mingle m fuel w).2 :=
  (evolves_invariant hm w).mingle fuel .refl

theorem interleave_evolves (hm : m.Evolving) (r : Run σ) (w : World) :
    w.Evolves (r.interleave m w).2 :=
  mingle_evolves hm _ r w

theorem awaitWith_evolves (hm : m.Evolving) (fuel : Nat) (r : Run σ) (w : World) :
    w.Evolves (r.awaitWith m fuel w).2.2 := by
  have hreceives := (evolves_invariant hm w).stable.awaitWith fuel (r := r) .refl
  generalize r.awaitWith m fuel w = x at hreceives
  cases hreceives with
  | message h => exact h
  | disconnected h => exact h
  | timeout h => exact h
  | stalled h => exact h

theorem await_evolves (hm : m.Evolving) (r : Run σ) (w : World) :
    w.Evolves (r.await m w).2.2 :=
  awaitWith_evolves hm _ r w

theorem settle_evolves (hm : m.Evolving) (fuel : Nat) (r : Run σ) (w : World) :
    w.Evolves (r.settle m fuel w).2 :=
  (evolves_invariant hm w).settle fuel .refl

theorem shutdown_evolves (hm : m.Evolving) (r : Run σ) (w : World) :
    w.Evolves (r.shutdown m w).2 :=
  (w.evolves_cancel r.token).trans (settle_evolves hm _ _ _)

end Run

/-! ## Parallel maps -/

namespace ParallelCursor

variable {σ : Type} {m : Machine σ}

theorem giveUp_evolves (hm : m.Evolving) (r : Run σ) (e : QueryError) (w : World) :
    w.Evolves (giveUp m r e w).2 := by
  have hmingled := Run.interleave_evolves hm r w
  have hshut := hmingled.trans (Run.shutdown_evolves hm (r.interleave m w).1 _)
  rw [giveUp]
  dsimp only
  split <;> exact hshut

theorem startWorkers_evolves (hm : m.Evolving) (ctx : Context) (env : Env) (position : Nat)
    (bindings : List Binding) (r : Run σ) (w : World) :
    w.Evolves (startWorkers m ctx env position bindings r w).2 := by
  induction bindings generalizing r w with
  | nil => exact .refl
  | cons b rest ih =>
      have hhired := w.evolves_hire ctx r.token r.workers.length
      rw [startWorkers]
      generalize w.hire ctx r.token r.workers.length = x at hhired
      obtain ⟨_ | context, w'⟩ := x
      · exact hhired.trans (giveUp_evolves hm r _ w')
      · exact (hhired.trans w'.evolves_recordStarted).trans
          ((Run.interleave_evolves hm _ _).trans (ih _ _))

theorem startRun_evolves (hm : m.Evolving) (p : Partitioning) (ctx : Context) (base : CursorBase)
    (w : World) : w.Evolves (startRun m p ctx base w).2 := by
  rw [startRun]
  split
  · exact .refl
  · split
    · exact .refl
    · exact (w.evolves_newChild ctx.token).trans (startWorkers_evolves hm ctx _ _ _ _ _)

theorem openRun_evolves (hm : m.Evolving) (p : Partitioning) : (openRun m p).Evolving := by
  intro ctx s w
  rw [openRun]
  split
  · exact .refl
  · rename_i base _
    have hstarted := startRun_evolves hm p ctx base w
    generalize startRun m p ctx base w = x at hstarted
    obtain ⟨_ | run, w'⟩ := x <;> exact hstarted

theorem fail_evolves (hm : m.Evolving) (s : State σ) (e : QueryError) (w : World) :
    w.Evolves (fail m s e w).world := by
  rw [fail]
  split
  · exact .refl
  · exact Run.shutdown_evolves hm _ w

theorem complete_evolves (hm : m.Evolving) (s : State σ) (r : Run σ) (w : World) :
    w.Evolves (complete m s r w).world := by
  have hshut := Run.shutdown_evolves hm r w
  rw [complete]
  dsimp only
  split <;> exact hshut

theorem receive_rest_of_await (hm : m.Evolving) (ctx : Context) (fuel : Nat)
    (hrest : ∀ s (w : World), w.Evolves (receive m ctx fuel s w).world) {s : State σ} {r : Run σ}
    {w w' : World} (hchecked : w.check ctx = (.ok (), w')) (hrun : s.run = some r)
    (hlive : r.live ≠ 0) :
    (r.await m w').2.2.Evolves (receive m ctx (fuel + 1) s w).world := by
  rw [receive, hchecked]
  dsimp only
  rw [hrun]
  dsimp only
  rw [if_neg hlive]
  generalize r.await m w' = x
  obtain ⟨receipt, r', w''⟩ := x
  cases receipt with
  | message message =>
      cases message with
      | row i row => exact Run.interleave_evolves hm r' w''
      | finished i => exact hrest _ w''
      | failed i e => exact fail_evolves hm _ e w''
  | disconnected => exact fail_evolves hm _ _ w''
  | timeout => exact hrest _ w''
  | stalled => exact .refl

theorem receive_rest (hm : m.Evolving) (ctx : Context) (fuel : Nat)
    (hrest : ∀ s (w : World), w.Evolves (receive m ctx fuel s w).world) (s : State σ)
    (w : World) : (w.check ctx).2.Evolves (receive m ctx (fuel + 1) s w).world := by
  cases hchecked : w.check ctx with
  | mk result w' =>
  cases hrun : s.run with
  | none =>
      rw [receive, hchecked]
      cases result with
      | error e => exact fail_evolves hm s e w'
      | ok _ =>
          dsimp only
          rw [hrun]
  | some r =>
      cases result with
      | error e =>
          rw [receive, hchecked]
          exact fail_evolves hm s e w'
      | ok _ =>
          by_cases hlive : r.live = 0
          · rw [receive, hchecked]
            dsimp only
            rw [hrun]
            dsimp only
            rw [if_pos hlive]
            exact complete_evolves hm s r w'
          · exact (Run.await_evolves hm r w').trans
              (receive_rest_of_await hm ctx fuel hrest hchecked hrun hlive)

theorem receive_evolves (hm : m.Evolving) (ctx : Context) (fuel : Nat) (s : State σ) (w : World) :
    w.Evolves (receive m ctx fuel s w).world := by
  induction fuel generalizing s w with
  | zero => exact .refl
  | succ fuel ih => exact (w.evolves_check ctx).trans (receive_rest hm ctx fuel ih s w)

theorem closeRun_evolves (hm : m.Evolving) : (closeRun m).Evolving := by
  intro ctx s w
  rw [closeRun]
  split
  · exact .refl
  · split
    · exact .refl
    · exact Run.shutdown_evolves hm _ w

theorem evolving (hm : m.Evolving) (p : Partitioning) : (machine m p).Evolving where
  openRun := openRun_evolves hm p
  next := by
    intro ctx s w
    dsimp only [machine]
    rw [next]
    split
    · exact .refl
    · exact receive_evolves hm ctx _ s w
  closeRun := closeRun_evolves hm
  destroy := Leaf.destroy_evolves (closeRun_evolves hm)
  openBindings := Leaf.openBindings_evolves
  nextBindings := Leaf.nextBindings_evolves
  closeBindings := Leaf.closeBindings_evolves
  letGo s w := by
    dsimp only [machine]
    rw [letGo]
    split
    · exact .refl
    · exact Run.shutdown_evolves hm _ w

end ParallelCursor

/-! ## Plans -/

namespace Plan

theorem cursor_evolving (p : Plan) : p.cursor.Evolving := by
  induction p with
  | values type rows => exact ValuesCursor.evolving rows
  | scan s => exact IndexScanCursor.evolving s
  | select input predicate ih => exact SelectCursor.evolving ih predicate
  | project input p ih => exact ProjectCursor.evolving ih p
  | aggregate input g ih => exact AggregateCursor.evolving ih g
  | sort input s ih => exact SortCursor.evolving ih s
  | map input m ih => exact ParallelCursor.evolving ih m

end Plan
end OrderedQuery
