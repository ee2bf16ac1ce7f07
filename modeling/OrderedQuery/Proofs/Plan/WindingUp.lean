import OrderedQuery.Proofs.Plan.Discipline
import OrderedQuery.Proofs.Plan.Soundness

/-!
# No worker outlives its run

The cursor of a parallel map is called any number of times, in any worlds, and a `Ledger` is kept
of what its calls have done to them.  Once a call has ended the run, every worker has come to its
end, the ledger counts as many workers finished as started, and every transaction that a call has
begun has been ended.  Before that the run never gets stuck.

A worker may itself run parallel maps, whose cursors are called by the worker in its own context.
What holds of a run includes the runs below it.
-/

namespace OrderedQuery

/-- What the calls on a cursor have done to the world. -/
structure Ledger where
  started : Nat
  finished : Nat
  /-- The sessions whose transactions a call has begun and none has ended. -/
  opened : List SessionId

namespace Ledger

/-- Nothing has been done yet. -/
def blank : Ledger := ⟨0, 0, []⟩

/-- Enters a call that has led from one world to another. -/
def enter (l : Ledger) (w w' : World) : Ledger where
  started := l.started + (w'.stats.workersStarted - w.stats.workersStarted)
  finished := l.finished + (w'.stats.workersFinished - w.stats.workersFinished)
  opened := (w'.engine.active.map Prod.fst).filter fun s =>
    decide (s ∈ l.opened) || !w.engine.inTransaction s

/-- Nothing is left to be done. -/
def Closed (l : Ledger) : Prop := l.started = l.finished ∧ l.opened = []

/-- The ledger agrees with what is due. -/
structure Balances (l : Ledger) (d : Dues) : Prop where
  counted : l.started = l.finished + d.workers
  opened : ∀ s ∈ l.opened, s ∈ d.sessions

variable {l : Ledger} {d d' : Dues} {w w' : World}

theorem balances_blank : blank.Balances 0 := ⟨rfl, nofun⟩

theorem mem_opened_enter {s : SessionId} :
    s ∈ (l.enter w w').opened ↔ w'.engine.inTransaction s = true ∧
      (s ∈ l.opened ∨ w.engine.inTransaction s = false) := by
  unfold enter
  rw [List.mem_filter, Engine.inTransaction_iff]
  simp

/-- Between two worlds the ledger changes as what is due does. -/
theorem Balances.enter (h : l.Balances d) (ha : Accounts d d' w w') :
    (l.enter w w').Balances d' where
  counted := by
    have hbefore := h.counted
    have hcounted := ha.counted
    have hstarted := ha.started
    have hfinished := ha.finished
    unfold Ledger.enter
    dsimp only
    omega
  opened s hs := by
    obtain ⟨hin, hours⟩ := mem_opened_enter.mp hs
    obtain ⟨t, hmem⟩ := Engine.inTransaction_iff.mp hin
    by_contra hnot
    by_cases hdue : s ∈ d.sessions
    · exact ha.not_mem_active' hdue hnot hmem
    · rcases hours with hopened | hout
      · exact hdue (h.opened s hopened)
      · have hbefore := (ha.mem_active_iff hdue hnot).mp hmem
        rw [Engine.inTransaction_iff.mpr ⟨t, hbefore⟩] at hout
        cases hout

/-- What is due and still open has been entered. -/
theorem mem_opened_of_held (ha : Accounts d d' w w') (hheld : ∀ s ∈ d.sessions, s ∈ l.opened)
    {s : SessionId} (hs : s ∈ d'.sessions) (hin : w'.engine.inTransaction s = true) :
    s ∈ (l.enter w w').opened := by
  refine mem_opened_enter.mpr ⟨hin, ?_⟩
  by_cases hdue : s ∈ d.sessions
  · exact .inl (hheld s hdue)
  · refine .inr (Bool.eq_false_iff.mpr fun hbefore => ?_)
    obtain ⟨t, hmem⟩ := Engine.inTransaction_iff.mp hbefore
    exact ha.not_mem_active hdue hs hmem

theorem Balances.closed (h : l.Balances 0) : l.Closed :=
  ⟨h.counted, List.eq_nil_iff_forall_not_mem.mpr fun s hs => Multiset.notMem_zero s (h.opened s hs)⟩

end Ledger

/-- A call after which no worker is to be left: it closes or destroys the cursor, or it finds no
more rows or fails, or it fails to open a run. -/
def Call.WindsUp : Call → CursorState → Except QueryError Reply → Prop
  | .closeRun, _, _ | .destroy, _, _ | .next, _, .ok (.row none) | .next, _, .error _
  | .openRun, .idle, .error _ => True
  | _, _, _ => False

/-- No call that opens a run winds it up. -/
theorem Call.WindsUp.not_done {state : CursorState}
    (h : Call.WindsUp .openRun state (.ok .done)) : False := by
  cases state with
  | idle => exact h
  | active => exact h
  | destroyed => exact h

namespace ParallelCursor

open Run (Steps Concludes)

variable {σ : Type}

/-- A world in which the cursor can be called.  If its workers write, then either nobody else
writes and the transactions of the workers have been left to them, or the caller is itself inside
a transaction and has no run. -/
def Undisturbed (ctx : Context) (l : Ledger) (s : State σ) (w : World) : Prop :=
  ctx.config.mode = .readWrite →
    (∀ a ∈ w.engine.active, a.2.mode = .readWrite → a.1 ∈ l.opened) ∧
        (∀ s ∈ l.opened, w.engine.inTransaction s = true) ∨
      w.engine.inTransaction ctx.session = true ∧ s.run = none

/-- A state that calls from one context lead to from a new cursor, with what they have done. -/
inductive Driven (m : Machine (State σ)) (ctx : Context) (source : BindingSource) :
    State σ → Ledger → Prop where
  | fresh : Driven m ctx source (m.fresh source) .blank
  | call {s : State σ} {l : Ledger} (h : Driven m ctx source s l) {w : World}
      (hw : Undisturbed ctx l s w) (c : Call) :
      Driven m ctx source (m.call c ctx s w).state (l.enter w (m.call c ctx s w).world)

/-- What the run of a cursor can come to in a world, the run that it opens there if it has
none. -/
def Reaches (m : Machine σ) (p : Partitioning) (ctx : Context) (s : State σ) (w : World)
    (x : Run σ × World) : Prop :=
  (∃ r, s.run = some r ∧ Steps m p ctx (r, w) x) ∨
    s.run = none ∧ checkMode p ctx w = .ok () ∧ Steps m p ctx (begun p ctx w) x

/-- Between two worlds every worker of the run has come to its end by steps of the run.  If there
was no run, then no worker has been started, or else it has come to its end as well. -/
def Concluded (m : Machine σ) (D : Discipline σ) (p : Partitioning) (ctx : Context)
    (s : State σ) (w w' : World) : Prop :=
  (∀ r, s.run = some r → Concludes m D p ctx (r, w) w') ∧
    (s.run = none → w.Passes w' ∨ Concludes m D p ctx (begun p ctx w) w')

/-- The cursor and the ledger agree. -/
structure Agrees (D : Discipline σ) (p : Partitioning) (ctx : Context) (s : State σ)
    (l : Ledger) : Prop where
  orderly : (discipline D p).Orderly ctx s
  balances : l.Balances ((discipline D p).dues s)
  held : ctx.config.mode = .readWrite → ∀ x ∈ ((discipline D p).dues s).sessions, x ∈ l.opened

variable {m : Machine σ} {D : Discipline σ} {p : Partitioning} {ctx : Context}
  {source : BindingSource} {access : Access} {s s' : State σ} {l : Ledger} {w w' : World}

theorem Agrees.allows (h : Agrees D p ctx s l) (hw : Undisturbed ctx l s w) :
    ∃ access, (discipline D p).Allows access ctx s w := by
  cases hmode : ctx.config.mode with
  | readOnly =>
      refine ⟨.free, h.orderly, ?_⟩
      show w.Clear ctx.config.mode _
      rw [hmode]
      exact w.clear_of_readOnly _
  | readWrite =>
      rcases hw hmode with ⟨hwriters, hopen⟩ | ⟨hin, hnone⟩
      · refine ⟨.free, h.orderly, ?_, ?_⟩
        · intro _ a hmem hwrites
          exact h.balances.opened a.1 (hwriters a hmem hwrites)
        · intro _ x hx
          exact hopen x (h.held hmode x hx)
      · exact ⟨.inside, h.orderly, hmode, hin, hnone⟩

theorem Agrees.leads (h : Agrees D p ctx s l)
    (hl : (discipline D p).Leads access ctx s w s' w') : Agrees D p ctx s' (l.enter w w') := by
  refine ⟨hl.allows.orderly, h.balances.enter hl.accounts, ?_⟩
  intro hmode x hx
  apply Ledger.mem_opened_of_held hl.accounts (h.held hmode) hx
  have hclear := hl.allows.clear
  cases access with
  | free => exact World.Clear.held hclear hmode x hx
  | inside =>
      rw [(discipline D p).dues_of_rests hclear.2.2] at hx
      exact absurd hx (Multiset.notMem_zero x)

theorem Driven.agrees (hm : m.Disciplined D) (hs : Driven (machine m p) ctx source s l) :
    Agrees D p ctx s l := by
  induction hs with
  | fresh => exact ⟨nofun, Ledger.balances_blank, fun _ x hx => absurd hx (Multiset.notMem_zero x)⟩
  | call h hw c ih =>
      obtain ⟨access, hallows⟩ := ih.allows hw
      exact ih.leads ((disciplined hm p).respects c hallows).1

theorem Turn.concluded (h : Turn m D p ctx s w s' w') (hrun : s'.run = none) :
    Concluded m D p ctx s w w' := by
  cases h with
  | keeps hkept hbase hw =>
      have hnone : s.run = none := hkept.symm.trans hrun
      exact ⟨fun r hr => absurd (hnone.symm.trans hr) nofun, fun _ => .inl hw⟩
  | opens hnone hmode hsteps hreader hactive hrun' => exact absurd (hrun.symm.trans hrun') nofun
  | fails hnone hmode hconcludes hrun' =>
      exact ⟨fun r hr => absurd (hnone.symm.trans hr) nofun, fun _ => .inr hconcludes⟩
  | goes hr hsteps hreader hactive hrun' => exact absurd (hrun.symm.trans hrun') nofun
  | @ends r hr hconcludes hrun' =>
      refine ⟨?_, fun hnone => absurd (hnone.symm.trans hr) nofun⟩
      intro r' hr'
      obtain rfl := Option.some.inj (hr.symm.trans hr')
      exact hconcludes

/-- A call that winds up leaves no run. -/
theorem run_eq_none_of_windsUp (hm : m.Disciplined D)
    (hs : (discipline D p).Allows access ctx s w) {c : Call}
    (hc : c.WindsUp s.base.state ((machine m p).call c ctx s w).result) :
    ((machine m p).call c ctx s w).state.run = none := by
  cases c with
  | openRun =>
      obtain ⟨-, -, hfails⟩ := openRun_turn hm hs
      have hresult : Call.WindsUp .openRun s.base.state
          ((openRun m p ctx s w).result.map fun () => .done) := hc
      show (openRun m p ctx s w).state.run = none
      cases hopened : (openRun m p ctx s w).result with
      | ok _ =>
          rw [hopened] at hresult
          exact hresult.not_done.elim
      | error e =>
          rw [hfails (by rw [hopened]; exact nofun)]
          apply run_eq_none hs.orderly
          intro hactive
          rw [hopened, hactive] at hresult
          exact hresult.elim
  | next =>
      obtain ⟨-, -, hnone⟩ := next_turn hm hs
      apply hnone
      intro row hrow
      have hresult : Call.WindsUp .next s.base.state ((next m ctx s w).result.map .row) := hc
      rw [hrow] at hresult
      exact hresult
  | closeRun => exact (closeRun_turn hm hs).2.2
  | destroy => exact (destroy_turn hm hs).2.2
  | openBindings => exact hc.elim
  | nextBindings => exact hc.elim
  | closeBindings => exact hc.elim

theorem letGo_turn (hm : m.Disciplined D) (hs : (discipline D p).Allows access ctx s w) :
    Turn m D p ctx s w { s with run := none } (letGo m s w) := by
  unfold letGo
  cases hrun : s.run with
  | none => exact .keeps hrun.symm (fun hsome => absurd hrun hsome) (.refl w)
  | some r =>
      obtain ⟨hsteps, hended⟩ := (allows_run hs hrun).2.shutdown hm
      exact .ends hrun ⟨_, hsteps, hended⟩ rfl

theorem Reaches.allows (hm : m.Disciplined D) (hs : (discipline D p).Allows access ctx s w)
    {x : Run σ × World} (hx : Reaches m p ctx s w x) : Run.Allows D p ctx x := by
  rcases hx with ⟨r, hrun, hsteps⟩ | ⟨hnone, hmode, hsteps⟩
  · exact (hsteps.leads hm (allows_run hs hrun).2).allows
  · have hw := (clear_of_checkMode hs.clear hnone hmode).2
    exact (hsteps.leads hm (allows_begun hmode hw)).allows

end ParallelCursor

theorem Grouping.returns_of_build {input : RowType} {fields : Nat}
    {calls : List (String × Option Nat)} {g : Grouping}
    (h : build .builtins input fields calls = .ok g) : g.Returns := by
  rw [build] at h
  split at h
  · cases h
  · obtain ⟨resolved, hresolved, h⟩ := Except.bind_eq_ok_iff.mp h
    obtain rfl := Except.ok.inj h
    intro c hc
    obtain ⟨r, hr, rfl⟩ := List.mem_map.mp hc
    exact AggregateFunction.returns_of_mem_builtins (mem_builtins_of_resolve hresolved r hr)

namespace Plan

/-- With the functions that are there from the start, every plan returns. -/
theorem Accepted.returns {p : Plan} (hp : p.Accepted) : p.Returns := by
  induction hp with
  | values h =>
      obtain ⟨rfl, -⟩ := ofRows_eq_ok h
      trivial
  | scan _ _ _ h =>
      obtain ⟨s, -, rfl⟩ := ofScan_eq_ok h
      trivial
  | select _ h ih =>
      obtain rfl := ofSelect_eq_ok h
      exact ih
  | project _ h ih =>
      obtain ⟨q, rfl⟩ := ofProject_eq_ok h
      exact ih
  | aggregate _ h ih =>
      obtain ⟨g, hg, h⟩ := Except.bind_eq_ok_iff.mp h
      obtain rfl := Except.ok.inj h
      exact ⟨ih, Grouping.returns_of_build hg⟩
  | sort _ h ih =>
      obtain ⟨rfl, -⟩ := ofSort_eq_ok h
      exact ih
  | map _ h ih =>
      obtain rfl := ofMap_eq_ok h
      exact ih

/-- A parallel map whose workers return, called from one context in any worlds that leave its
workers undisturbed.  The input can hold parallel maps as well, and the context can be that of a
worker of another one.

After a call that closes or destroys the cursor, that finds no more rows or fails to find one, or
that fails to open a run, and likewise after the cursor has been let go, there is no run.  Every
worker of the run, and every worker of a run that such a call has started itself, has come to
its end by steps of the run.  So have those that are at work already when the context turns out
to be cancelled, or when the system does not start the thread of the next one.  No transaction
that the calls have begun is open, and they have counted as many workers finished as started.  A
call that opens a run is refused, and does nothing, unless the cursor is idle.

Whatever steps are taken in whatever order, the run does not get stuck before that, and wherever
it has come to, shutting it down leads it to its end. -/
theorem map_winds_up {input : Plan} (hinput : input.Returns) {p : Partitioning} {ctx : Context}
    {source : BindingSource} {s : ParallelCursor.State input.State} {l : Ledger}
    (hs : ParallelCursor.Driven (map input p).cursor ctx source s l) {w : World}
    (hw : ParallelCursor.Undisturbed ctx l s w) :
    let m : Machine (ParallelCursor.State input.State) := (map input p).cursor
    (∀ c : Call, c.WindsUp s.base.state (m.call c ctx s w).result →
        let o := m.call c ctx s w
        o.state.run = none ∧
          ParallelCursor.Concluded input.cursor input.discipline p ctx s w o.world ∧
          (l.enter w o.world).Closed) ∧
      (s.base.state ≠ .idle → (m.openRun ctx s w).state = s ∧ (m.openRun ctx s w).world = w) ∧
      (ParallelCursor.Concluded input.cursor input.discipline p ctx s w (m.letGo s w) ∧
        (l.enter w (m.letGo s w)).Closed) ∧
      ∀ r w', ParallelCursor.Reaches input.cursor p ctx s w (r, w') →
        ¬ r.Stuck w' ∧
          Run.Concludes input.cursor input.discipline p ctx (r, w')
            (r.shutdown input.cursor w').2 := by
  intro m
  have hm := input.cursor_disciplined hinput
  have hagrees := hs.agrees hm
  obtain ⟨access, hallows⟩ := hagrees.allows hw
  have hclosed : ∀ {s' w'}, ParallelCursor.Turn input.cursor input.discipline p ctx s w s' w' →
      s'.run = none → (l.enter w w').Closed := by
    intro s' w' hturn hnone
    have hbalances := (hagrees.leads (hturn.leads hm hallows)).balances
    rw [(ParallelCursor.discipline input.discipline p).dues_of_rests hnone] at hbalances
    exact hbalances.closed
  refine ⟨?_, ?_, ?_, ?_⟩
  · intro c hc
    have hturn := (ParallelCursor.call_turn hm hallows c).1
    have hnone := ParallelCursor.run_eq_none_of_windsUp hm hallows hc
    exact ⟨hnone, hturn.concluded hnone, hclosed hturn hnone⟩
  · intro hstate
    show (ParallelCursor.openRun input.cursor p ctx s w).state = s ∧
      (ParallelCursor.openRun input.cursor p ctx s w).world = w
    rw [ParallelCursor.openRun, CursorBase.beginOpen_eq_error hstate]
    exact ⟨rfl, rfl⟩
  · have hturn := ParallelCursor.letGo_turn hm hallows
    exact ⟨hturn.concluded rfl, hclosed hturn rfl⟩
  · intro r w' hreaches
    have hrun := hreaches.allows hm hallows
    exact ⟨hrun.not_stuck, _, hrun.shutdown hm⟩

/-- Two workers that run two workers each, which count rows.  When the cursor is closed, both of
the former are in their transactions, and one of them has started workers of its own.  If the
system does not start the second of the former, then the first of them and its workers come to
their ends before the cursor fails to open. -/
theorem map_winds_up_nested :
    let type : RowType := .ofFields [.int]
    let pair : RowType := .ofFields [.int, .int]
    let inner : Plan := .project (.values type [⟨type, [.int 0], rfl⟩])
      ⟨[.arith .add (.bound 0 .int) (.bound 1 .int)], type⟩
    let counted : Plan := .aggregate inner ⟨1, [⟨"count", none, .count⟩], pair⟩
    let input : Plan := .map counted ⟨[.value (.int 10), .value (.int 20)], 1⟩
    let p : Partitioning := ⟨[.value (.int 1), .value (.int 2)], 0⟩
    let made := (World.ofEngine .empty).newContext {}
    let m : Machine (ParallelCursor.State input.State) := (map input p).cursor
    let bound := m.call .openBindings made.1 (m.fresh (.ofEnv .root)) made.2
    let supplied := m.call .nextBindings made.1 bound.state bound.world
    let before := (Ledger.blank.enter made.2 bound.world).enter bound.world supplied.world
    let w := { supplied.world with schedule := List.replicate 8 1 }
    let opened := m.call .openRun made.1 supplied.state w
    let l := before.enter w opened.world
    let closed := m.call .closeRun made.1 opened.state opened.world
    let short := { w with spawns := [none, none, none, some "out of threads"] }
    let refused := m.call .openRun made.1 supplied.state short
    let l' := before.enter short refused.world
    (l.started = 4 ∧ l.finished = 0 ∧ l.opened = [1, 2] ∧
      (l.enter opened.world closed.world).Closed) ∧
    refused.result = .error (.worker 1 (.unstarted "out of threads")) ∧ l'.started = 3 ∧
      l'.Closed := by
  intro type pair inner counted input p made m bound supplied before w opened l closed short
    refused l'
  have hreads : ∀ l (s : ParallelCursor.State input.State) w,
      ParallelCursor.Undisturbed made.1 l s w := by
    intro l s w hmode
    cases hmode
  have hfresh : ParallelCursor.Driven m made.1 (.ofEnv .root)
      (m.fresh (.ofEnv .root)) .blank := .fresh
  have hbound := hfresh.call (hreads _ _ made.2) .openBindings
  have hsupplied : ParallelCursor.Driven m made.1 (.ofEnv .root) supplied.state before :=
    hbound.call (hreads _ _ bound.world) .nextBindings
  have hopened := hsupplied.call (hreads _ _ w) .openRun
  have hcount : Registry.builtins.get "count" = .ok .count :=
    Registry.get_of_mem_builtins List.mem_cons_self
  have haggregate : ofAggregate .builtins inner 1 [("count", none)] = .ok counted := by
    unfold ofAggregate Grouping.build Grouping.resolve
    rw [hcount]
    rfl
  have hvalues : ofRows type [⟨type, [.int 0], rfl⟩] = .ok (.values type _) := rfl
  have hinner : ofProject (.values type [⟨type, [.int 0], rfl⟩])
      [.arith .add (.bound 0 .int) (.bound 1 .int)] = .ok inner := rfl
  have hmap : ofMap counted ⟨[.value (.int 10), .value (.int 20)], 1⟩ = .ok input := rfl
  have hinput : Accepted input :=
    .map (.aggregate (.project (.values hvalues) hinner) haggregate) hmap
  obtain ⟨hwindsUp, -⟩ := map_winds_up hinput.returns hopened (hreads _ _ opened.world)
  obtain ⟨-, -, hclosed⟩ := hwindsUp .closeRun trivial
  have houtcome : (refused.result.map fun _ => ()) =
      .error (.worker 1 (.unstarted "out of threads")) := by
    decide +kernel
  have hfails := Except.map_eq_error_iff.mp houtcome
  have hidle : supplied.state.base.state = .idle := by decide +kernel
  obtain ⟨hwindsUp, -⟩ := map_winds_up hinput.returns hsupplied (hreads _ _ short)
  obtain ⟨-, -, hclosed'⟩ := hwindsUp .openRun (by
    rw [hidle, hfails]
    trivial)
  exact ⟨⟨by decide +kernel, by decide +kernel, by decide +kernel, hclosed⟩, hfails,
    by decide +kernel, hclosed'⟩

end Plan
end OrderedQuery
