import OrderedQuery.Proofs.Cursor.Parallel.Invariants
import OrderedQuery.Proofs.Cursor.Refusals

/-!
# Workers whose cursors refuse no call

A worker keeps to the order of calls on its cursor, so none of them is refused, and what it
reports is something else.  `Worker.Regular` says this of a worker in each of its phases; every
step keeps it, whatever the world is like and whichever worker is next.
-/

namespace OrderedQuery

variable {σ : Type} {m : Machine σ} {name : String} {tree : σ → List CursorState}
  {Idle : Standing σ} {Ready Running : σ → Prop}

/-- The message does not report a refused call. -/
def Message.Proper : Message → Prop
  | failed _ e => e.Proper
  | _ => True

/-- What it takes for workers to use cursors: they obey the protocol, do not refuse calls in
their order, and can be opened as soon as they have been given an environment. -/
structure Machine.Employable (m : Machine σ) (name : String) (tree : σ → List CursorState)
    (Idle : Standing σ) (Ready Running : σ → Prop) : Prop where
  obeys : m.Obeys name tree
  cooperates : m.Cooperates tree Ready Running
  supply : ∀ ctx, m.Supply ctx Idle
  ready : ∀ source env s, Idle source (some env) s → Ready s

/-- No message that is on its way reports a refused call. -/
def Channel.Proper (ch : Channel) : Prop := ∀ message ∈ ch.queue, message.Proper

theorem Channel.Proper.send {ch : Channel} (h : ch.Proper) {message : Message}
    (hmessage : message.Proper) : (ch.send message).Proper := by
  unfold Channel.send
  split
  · intro message' hmem
    rcases List.mem_append.mp hmem with hmem | hmem
    · exact h message' hmem
    · rw [List.mem_singleton.mp hmem]
      exact hmessage
  · exact h

namespace Worker

/-- A worker keeps to the order of calls. -/
def Regular (m : Machine σ) (tree : σ → List CursorState) (Running : σ → Prop)
    (k : Worker σ) : Prop :=
  match k.phase with
  | .begin | .opening => ∃ env, k.cursor = m.fresh (.ofEnv env)
  | .pulling | .sending _ => Running k.cursor
  | .closing pumped => NoneDestroyed (tree k.cursor) ∧ FailsProperly pumped
  | .ending result | .reporting result => FailsProperly result
  | .ended | .aborted => True

variable {k : Worker σ} {context : Context} {c : σ}

theorem regular_stop {e : QueryError} (hc : NoneDestroyed (tree c)) (he : e.Proper) (w : World) :
    (k.stop m c e w).1.Regular m tree Running := by
  unfold stop
  split
  · trivial
  · exact ⟨hc, .error he⟩

theorem regular_openCursor (hm : m.Employable name tree Idle Ready Running) (env : Env)
    (phase : Phase) (w : World) :
    (openCursor m ⟨context, m.fresh (.ofEnv env), phase⟩ w).1.Regular m tree Running := by
  obtain ⟨s, hidle, htop⟩ := (hm.supply context).openTop_eq env w
  have hready := hm.ready _ _ _ hidle
  have hopened := hm.cooperates.openRun context w hready
  have hkept : NoneDestroyed (tree (m.openRun context s w).state) :=
    hm.obeys.keeps .openRun context s w (by decide) (hm.cooperates.ready hready)
  unfold openCursor
  dsimp only
  rw [htop]
  generalize m.openRun context s w = o at hopened hkept
  obtain ⟨e | _, s', w'⟩ := o
  · exact regular_stop hkept hopened.proper.of_error w'
  · exact hopened.returns _ rfl

theorem regular_pull (hm : m.Employable name tree Idle Ready Running) (phase : Phase) (w : World)
    (hc : Running c) : (pull m ⟨context, c, phase⟩ w).1.Regular m tree Running := by
  have hnext := hm.cooperates.next context w hc
  have hkept : NoneDestroyed (tree (m.next context c w).state) :=
    hm.obeys.keeps .next context c w (by decide) (hm.cooperates.running hc)
  unfold pull
  dsimp only
  generalize m.next context c w = o at hnext hkept
  obtain ⟨e | row, c', w'⟩ := o
  · exact regular_stop hkept hnext.proper.of_error w'
  · cases row with
    | none => exact ⟨hkept, .ok ()⟩
    | some row =>
        have hchecked := w'.check_failsProperly context
        dsimp only
        generalize w'.check context = checked at hchecked
        obtain ⟨e | _, w''⟩ := checked
        · exact ⟨hkept, hchecked⟩
        · exact hnext.of_row rfl

theorem regular_close (hm : m.Employable name tree Idle Ready Running) (phase : Phase)
    {pumped : Except QueryError Unit} (w : World) (hc : NoneDestroyed (tree c))
    (hpumped : FailsProperly pumped) :
    (close m ⟨context, c, phase⟩ pumped w).1.Regular m tree Running := by
  obtain ⟨hclosed, -⟩ := hm.obeys.closes context c w hc
  have hkept := hm.obeys.keeps .closeRun context c w (by decide) hc
  have hunbound := hm.cooperates.closeBindings context (m.closeRun context c w).world hkept
  have hunboundKept := hm.obeys.keeps .closeBindings context _ (m.closeRun context c w).world
    (by decide) hkept
  obtain ⟨hdestroyed, -⟩ := hm.obeys.destroys context _
    (m.closeTop context c w).world hunboundKept
  exact hpumped.firstError
    ((hclosed.failsProperly.firstError hunbound).firstError hdestroyed.failsProperly)

theorem regular_endTransaction {result : Except QueryError Unit} (k : Worker σ) (w : World)
    (h : FailsProperly result) : (k.endTransaction result w).1.Regular m tree Running := by
  cases result with
  | error e => exact h
  | ok _ => exact w.commitWork_failsProperly k.context

theorem regular_beginTransaction (env : Env) (phase : Phase) (w : World) :
    (beginTransaction ⟨context, m.fresh (.ofEnv env), phase⟩ w).1.Regular m tree Running := by
  have hbegun := w.beginWork_failsProperly context
  unfold beginTransaction
  dsimp only
  generalize w.beginWork context = x at hbegun
  obtain ⟨e | _, w'⟩ := x
  · exact hbegun
  · exact ⟨env, rfl⟩

/-- A step keeps a worker to the order of calls, and what it sends is no refused call. -/
theorem Regular.step (hm : m.Employable name tree Idle Ready Running)
    (h : k.Regular m tree Running) (i : Nat) {ch : Channel} (hch : ch.Proper) (w : World) :
    (k.step m i ch w).1.Regular m tree Running ∧ (k.step m i ch w).2.1.Proper := by
  obtain ⟨context, c, phase⟩ := k
  cases phase with
  | begin =>
      obtain ⟨env, rfl⟩ := h
      exact ⟨regular_beginTransaction env .begin w, hch⟩
  | opening =>
      obtain ⟨env, rfl⟩ := h
      exact ⟨regular_openCursor hm env .opening w, hch⟩
  | pulling => exact ⟨regular_pull hm .pulling w h, hch⟩
  | sending row =>
      unfold Worker.step
      dsimp only
      split
      · exact ⟨h, hch.send trivial⟩
      · exact ⟨⟨hm.cooperates.running h, .error trivial⟩, hch⟩
  | closing pumped => exact ⟨regular_close hm (.closing pumped) w h.1 h.2, hch⟩
  | ending result => exact ⟨regular_endTransaction _ w h, hch⟩
  | reporting result =>
      refine ⟨trivial, hch.send ?_⟩
      cases result with
      | ok _ => trivial
      | error e => exact FailsWith.of_error h
  | ended => exact ⟨trivial, hch⟩
  | aborted => exact ⟨trivial, hch⟩

end Worker

/-! ## Runs -/

namespace Run

/-- All workers of a run keep to the order of calls, and none has reported a refused one. -/
structure Regular (m : Machine σ) (tree : σ → List CursorState) (Running : σ → Prop)
    (r : Run σ) : Prop where
  workers : ∀ k ∈ r.workers, k.Regular m tree Running
  channel : r.channel.Proper

variable {r : Run σ}

theorem Regular.note (h : r.Regular m tree Running) (worker : Nat) :
    (r.note worker).Regular m tree Running :=
  ⟨h.workers, h.channel⟩

theorem Regular.stepWorker (hm : m.Employable name tree Idle Ready Running)
    (h : r.Regular m tree Running) (i : Nat) (w : World) :
    (r.stepWorker m i w).1.Regular m tree Running := by
  unfold Run.stepWorker
  split
  · exact h
  · rename_i k hk
    obtain ⟨hworker, hch⟩ :=
      (h.workers k (List.mem_of_getElem? hk)).step hm i h.channel w
    refine ⟨?_, hch⟩
    intro k' hmem
    rcases List.mem_or_eq_of_mem_set hmem with hmem | rfl
    · exact h.workers k' hmem
    · exact hworker

theorem regular_invariant (hm : m.Employable name tree Idle Ready Running) :
    Invariant m fun r _ => r.Regular m tree Running where
  step h i := h.stepWorker hm i _
  draw h := h

/-- What is on its way is no refused call. -/
theorem Regular.receive (h : r.Regular m tree Running) {message : Message} {queue : List Message}
    (hqueue : r.channel.queue = message :: queue) :
    message.Proper ∧ Regular m tree Running { r with channel := { r.channel with queue } } := by
  have hproper := h.channel
  rw [Channel.Proper, hqueue] at hproper
  obtain ⟨hmessage, hrest⟩ := List.forall_mem_cons.mp hproper
  exact ⟨hmessage, h.workers, hrest⟩

theorem verdict_failsProperly (r : Run σ) : FailsProperly r.verdict := by
  unfold verdict
  split
  · split
    · exact .error trivial
    · exact .ok _
  · exact .error trivial

end Run

/-! ## Cursors -/

namespace ParallelCursor

/-- A parallel map that can be asked for a row. -/
def Regular (m : Machine σ) (tree : σ → List CursorState) (Running : σ → Prop) (s : State σ) :
    Prop :=
  s.base.state = .active ∧ ∀ r, s.run = some r → r.Regular m tree Running

variable {p : Partitioning} {ctx : Context} {s : State σ} {r : Run σ}

theorem checkMode_failsProperly (p : Partitioning) (ctx : Context) (w : World) :
    FailsProperly (checkMode p ctx w) := by
  unfold checkMode
  split
  · exact .ok _
  · split
    · exact .error trivial
    · split
      · exact .error trivial
      · exact .ok _

theorem giveUp_proper (m : Machine σ) (r : Run σ) {e : QueryError} (he : e.Proper) (w : World) :
    (giveUp m r e w).1.Proper := by
  have hverdict := ((r.interleave m w).1.shutdown m (r.interleave m w).2).1.verdict_failsProperly
  unfold giveUp
  dsimp only
  split
  · rename_i first heq
    rw [heq] at hverdict
    exact hverdict.of_error
  · exact he

theorem startWorkers_regular (hm : m.Employable name tree Idle Ready Running) (env : Env)
    (bindings : List Binding) (hr : r.Regular m tree Running) (w : World) :
    let started := (startWorkers m ctx env p.position bindings r w).1
    FailsProperly started ∧ ∀ r', started = .ok r' → r'.Regular m tree Running := by
  induction bindings generalizing r w with
  | nil =>
      refine ⟨.ok r, ?_⟩
      rintro _ ⟨⟩
      exact hr
  | cons b rest ih =>
      have hhired := w.hire_failsProperly ctx r.token r.workers.length
      unfold startWorkers
      generalize w.hire ctx r.token r.workers.length = x at hhired
      obtain ⟨e | context, w'⟩ := x
      · exact ⟨.error (giveUp_proper m r hhired.of_error w'), fun _ he => by cases he⟩
      · have hstarted : Run.Regular m tree Running
            { r with workers := r.workers ++ [.start m context (env.fork.set p.position b)] } := by
          refine ⟨?_, hr.channel⟩
          intro k hmem
          rcases List.mem_append.mp hmem with hmem | hmem
          · exact hr.workers k hmem
          · rw [List.mem_singleton.mp hmem]
            exact ⟨_, rfl⟩
        exact ih ((Run.regular_invariant hm).interleave hstarted) _

theorem startRun_regular (hm : m.Employable name tree Idle Ready Running) (p : Partitioning)
    (ctx : Context) {base : CursorBase} (henv : base.env ≠ none) (w : World) :
    let started := (startRun m p ctx base w).1
    FailsProperly started ∧ ∀ r, started = .ok r → r.Regular m tree Running := by
  have hmode := checkMode_failsProperly p ctx w
  have hcurrent := CursorBase.currentEnv_failsProperly henv
  unfold startRun
  generalize checkMode p ctx w = x at hmode
  cases x with
  | error e => exact ⟨.error hmode.of_error, fun _ he => by cases he⟩
  | ok _ =>
      dsimp only
      generalize base.currentEnv = x at hcurrent
      cases x with
      | error e => exact ⟨.error hcurrent.of_error, fun _ he => by cases he⟩
      | ok env =>
          have hnone : (Run.start (w.signals.newChild ctx.token).1 ctx.config.channelCapacity
              p.partitions.length).Regular m tree Running :=
            ⟨List.forall_mem_nil _, List.forall_mem_nil _⟩
          exact startWorkers_regular hm env _ hnone _

theorem openRun_serves (hm : m.Employable name tree Idle Ready Running) (p : Partitioning)
    (ctx : Context) {s : State σ} (w : World) (h : Leaf.Ready s) :
    (openRun m p ctx s w).Serves fun _ s' => Regular m tree Running s' := by
  obtain ⟨hidle, henv⟩ := h
  have hactive : ({ s.base with state := .active } : CursorBase).env ≠ none := henv
  obtain ⟨hproper, hregular⟩ := startRun_regular hm p ctx hactive w
  rw [openRun, CursorBase.beginOpen_eq_ok hidle]
  dsimp only
  generalize startRun m p ctx { s.base with state := .active } w = x at hproper hregular
  obtain ⟨e | r, w'⟩ := x
  · exact .failed hproper.of_error
  · refine .returned ⟨rfl, ?_⟩
    rintro _ ⟨⟩
    exact hregular r rfl

theorem fail_serves {e : QueryError} (he : e.Proper) (s : State σ) (w : World)
    {P : State σ → Prop} : (fail m s e w).ServesRow P := by
  unfold fail
  split
  · exact .failed he
  · exact .failed he

theorem complete_serves (s : State σ) (r : Run σ) (w : World) {P : State σ → Prop} :
    (complete m s r w).ServesRow P := by
  unfold complete
  have hverdict := (r.shutdown m w).1.verdict_failsProperly
  dsimp only
  generalize (r.shutdown m w).1.verdict = x at hverdict
  cases x with
  | error e => exact .failed hverdict.of_error
  | ok _ => exact .ended

theorem Regular.set_run (h : Regular m tree Running s) {r : Run σ}
    (hr : r.Regular m tree Running) : Regular m tree Running { s with run := some r } := by
  refine ⟨h.1, ?_⟩
  rintro _ ⟨⟩
  exact hr

theorem receive_serves (hm : m.Employable name tree Idle Ready Running) (fuel : Nat)
    (hs : Regular m tree Running s) (w : World) :
    (receive m ctx fuel s w).ServesRow (Regular m tree Running) := by
  induction fuel generalizing s w with
  | zero => exact .failed trivial
  | succ fuel ih =>
      have hchecked := w.check_failsProperly ctx
      unfold receive
      generalize w.check ctx = x at hchecked
      obtain ⟨e | _, w⟩ := x
      · exact fail_serves hchecked.of_error s w
      · dsimp only
        cases hrun : s.run with
        | none => exact .ended
        | some r =>
            dsimp only
            by_cases hlive : r.live = 0
            · rw [if_pos hlive]
              exact complete_serves s r w
            · rw [if_neg hlive]
              have hawaited := (Run.regular_invariant hm).await (w := w) (hs.2 r hrun)
              generalize r.await m w = x at hawaited
              cases hawaited with
              | @message r' w' message queue hr hqueue =>
                  obtain ⟨hmessage, hr⟩ := hr.receive hqueue
                  cases message with
                  | row worker row =>
                      have hmingled := (Run.regular_invariant hm).interleave (w := w') hr
                      exact .handed fun _ _ => hs.set_run hmingled
                  | finished worker => exact ih (hs.set_run (hr.note worker)) w'
                  | failed worker e => exact fail_serves hmessage _ _
              | @disconnected r' w' hr =>
                  have hsilent : (QueryError.worker r'.firstSilent .unreported).Proper := trivial
                  exact fail_serves hsilent _ _
              | timeout hr => exact ih (hs.set_run hr) _
              | stalled hr => exact .failed trivial

theorem next_serves (hm : m.Employable name tree Idle Ready Running) (ctx : Context)
    {s : State σ} (w : World) (hs : Regular m tree Running s) :
    (next m ctx s w).ServesRow (Regular m tree Running) := by
  rw [next, CursorBase.checkNext_eq_ok hs.1]
  exact receive_serves hm _ hs w

/-- A parallel map refuses no call in order, whatever its workers meet with. -/
theorem cooperates (hm : m.Employable name tree Idle Ready Running) (p : Partitioning) :
    (machine m p).Cooperates (fun s => [s.base.state]) Leaf.Ready (Regular m tree Running) where
  ready h := Leaf.noneDestroyed (by rw [h.1]; decide)
  running h := Leaf.noneDestroyed (by rw [h.1]; decide)
  openRun := openRun_serves hm p
  next := next_serves hm
  closeBindings := Leaf.closeBindings_failsProperly

end ParallelCursor
end OrderedQuery
