import OrderedQuery.Proofs.Cursor.Parallel.Opening
import OrderedQuery.Proofs.Cursor.Parallel.Shutdown

/-!
# Every run comes to its end

Whatever the cursor of a parallel map is asked for, it leads its run on by steps of the run.  It
lets a run go only when every worker has come to its end.  That is so when the run is closed or
destroyed, when it fails or has no more rows, and when not all of its workers can be started.
-/

namespace OrderedQuery
namespace Run

variable {σ : Type} {m : Machine σ} {D : Discipline σ} {p : Partitioning} {ctx : Context}
  {r r' : Run σ} {i fuel : Nat} {w w' : World} {x y z : Run σ × World}

/-- Steps during which the reader stays and notes no report. -/
structure Attended (m : Machine σ) (p : Partitioning) (ctx : Context) (x y : Run σ × World) :
    Prop where
  steps : Steps m p ctx x y
  reader : y.1.channel.hasReader = x.1.channel.hasReader
  live : y.1.live = x.1.live
  started : y.1.workers.length = x.1.workers.length

theorem Attended.refl (x : Run σ × World) : Attended m p ctx x x := ⟨.refl, rfl, rfl, rfl⟩

theorem Attended.trans (h : Attended m p ctx x y) (h' : Attended m p ctx y z) :
    Attended m p ctx x z :=
  ⟨h.steps.trans h'.steps, h'.reader.trans h.reader, h'.live.trans h.live,
    h'.started.trans h.started⟩

theorem attended_draw (r : Run σ) (w : World) : Attended m p ctx (r, w) (r, w.draw.2) :=
  ⟨.single (.choose r w), rfl, rfl, rfl⟩

/-- The message is gone from the channel. -/
theorem attended_receive {message : Message} {queue : List Message}
    (hqueue : r.channel.queue = message :: queue) :
    Attended m p ctx (r, w) ({ r with channel := { r.channel with queue } }, w) :=
  ⟨.single (.receive hqueue), rfl, rfl, rfl⟩

theorem Allows.attended_stepWorker (hx : Allows D p ctx (r, w)) (hi : i ∈ r.ready w) :
    Attended m p ctx (r, w) (r.stepWorker m i w) := by
  obtain ⟨k, hk, -⟩ := mem_ready_iff.mp hi
  have hreader := ((hx.worker hk).step_channel (m := m) hx.orderly.channel i).2
  refine ⟨.single (.worker hi), ?_, ?_, ?_⟩
  · unfold Run.stepWorker
    rw [hk]
    exact hreader
  · unfold Run.stepWorker
    rw [hk]
  · unfold Run.stepWorker
    rw [hk]
    exact List.length_set ..

/-- A run stays in order while its reader attends to it. -/
theorem attended_stable (hm : m.Disciplined D) (x : Run σ × World) :
    Stable m fun r w => Allows D p ctx (r, w) ∧ Attended m p ctx x (r, w) where
  step h hi := ⟨(h.1.stepWorker hm _).allows, h.2.trans (h.1.attended_stepWorker hi)⟩
  draw {r w} h := by
    have hdrawn : Attended m p ctx (r, w) (r, w.draw.2) := attended_draw r w
    exact ⟨(hdrawn.steps.leads hm h.1).allows, h.2.trans hdrawn⟩

theorem Allows.attended_mingle (hm : m.Disciplined D) (hx : Allows D p ctx (r, w))
    (fuel : Nat) : Attended m p ctx (r, w) (r.mingle m fuel w) :=
  ((attended_stable hm (r, w)).mingle fuel ⟨hx, .refl (r, w)⟩).2

/-- A reader that attends to a run is served, since the run does not get stuck. -/
theorem attended_lively (hm : m.Disciplined D) (hreader : x.1.channel.hasReader = true) :
    Lively m fun r w => Allows D p ctx (r, w) ∧ Attended m p ctx x (r, w) where
  toStable := attended_stable hm x
  reader h := h.2.reader.trans hreader
  schedule h _ := (h.1.stepWorker hm _).accounts.schedule
  ready_ne_nil h hqueue hdone hready := h.1.not_stuck ⟨hdone, hready, fun _ => hqueue⟩

/-- What waiting leads to. -/
inductive Waits (m : Machine σ) (p : Partitioning) (ctx : Context) (r : Run σ) (w : World) :
    Receipt × Run σ × World → Prop where
  | message {r' : Run σ} {w' : World} {message : Message}
      (h : Attended m p ctx (r, w) (r', w')) (hmessage : message.Returns) :
      Waits m p ctx r w (.message message, r', w')
  | disconnected {r' : Run σ} {w' : World} (h : Attended m p ctx (r, w) (r', w')) :
      Waits m p ctx r w (.disconnected, r', w')
  | timeout {r' : Run σ} {w' : World} (h : Attended m p ctx (r, w) (r', w'))
      (hless : w'.schedule.length < w.schedule.length) :
      Waits m p ctx r w (.timeout, r', w')

theorem Allows.await (hm : m.Disciplined D) (hx : Allows D p ctx (r, w))
    (hreader : r.channel.hasReader = true) : Waits m p ctx r w (r.await m w) := by
  have hserves := (attended_lively hm hreader).await (And.intro hx (.refl (r, w)))
  generalize r.await m w = o at hserves
  cases hserves with
  | @message r' w' message queue h hqueue =>
      obtain ⟨hallows, hattended⟩ := h
      have hmessage : message.Returns := by
        apply hallows.orderly.channel.returns
        rw [hqueue]
        exact List.mem_cons_self
      exact .message (hattended.trans (attended_receive hqueue)) hmessage
  | disconnected h => exact .disconnected h.2
  | timeout h hless => exact .timeout h.2 hless

/-- By steps of the run, every worker has come to its end. -/
def Concludes (m : Machine σ) (D : Discipline σ) (p : Partitioning) (ctx : Context)
    (x : Run σ × World) (w : World) : Prop :=
  ∃ r, Steps m p ctx x (r, w) ∧ r.Ended D

theorem Concludes.after (h : Steps m p ctx x y) (hy : Concludes m D p ctx y w) :
    Concludes m D p ctx x w := by
  obtain ⟨r, hsteps, hended⟩ := hy
  exact ⟨r, h.trans hsteps, hended⟩

theorem Concludes.accounts (hm : m.Disciplined D) (h : Concludes m D p ctx x w)
    (hx : Allows D p ctx x) : Accounts (x.1.dues D) 0 x.2 w := by
  obtain ⟨r, hsteps, hended⟩ := h
  have haccounts := (hsteps.leads hm hx).accounts
  rwa [hended.dues_eq_zero] at haccounts

end Run

namespace ParallelCursor

open Run (Steps Attended Waits Concludes)

variable {σ : Type} {m : Machine σ} {D : Discipline σ} {p : Partitioning} {ctx : Context}
  {r r' : Run σ} {s s' : State σ} {w w' : World} {x y : Run σ × World}

/-- A run before the first of its workers has been started. -/
def begun (p : Partitioning) (ctx : Context) (w : World) : Run σ × World :=
  (.start (w.signals.newChild ctx.token).1 ctx.config.channelCapacity p.partitions.length,
    { w with signals := (w.signals.newChild ctx.token).2 })

theorem allows_begun (hmode : checkMode p ctx w = .ok ()) (hw : w.Clear ctx.config.mode 0) :
    Run.Allows D p ctx (begun p ctx w) where
  orderly := {
    token := List.cons_ne_nil _ _
    channel := ⟨Nat.lt_of_lt_of_le Nat.one_pos (Nat.le_max_right _ 1),
      List.forall_mem_nil _⟩
    started := Nat.zero_le _
    writers := mode_of_checkMode hmode
    workers := List.forall_mem_nil _ }
  clear := hw.passes (w.passes_newChild ctx.token)

/-! ## Starting the workers -/

/-- What the start of a run leads to. -/
inductive Starts (m : Machine σ) (D : Discipline σ) (p : Partitioning) (ctx : Context)
    (x : Run σ × World) : Except QueryError (Run σ) × World → Prop where
  | started {r : Run σ} {w : World} (hsteps : Steps m p ctx x (r, w))
      (hreader : r.channel.hasReader = true) : Starts m D p ctx x (.ok r, w)
  | failed {e : QueryError} {w : World} (he : e ≠ .aborted) (h : Concludes m D p ctx x w) :
      Starts m D p ctx x (.error e, w)

theorem Starts.after {o : Except QueryError (Run σ) × World} (h : Steps m p ctx x y)
    (ho : Starts m D p ctx y o) : Starts m D p ctx x o := by
  cases ho with
  | started hsteps hreader => exact .started (h.trans hsteps) hreader
  | failed he hconcludes => exact .failed he (hconcludes.after h)

theorem giveUp_concludes (hm : m.Disciplined D) (hx : Run.Allows D p ctx (r, w))
    (e : QueryError) :
    (giveUp m r e w).1 = e ∧ Concludes m D p ctx (r, w) (giveUp m r e w).2 := by
  -- those that are at work take steps of their own before they are told to stop
  have hattended := hx.attended_mingle hm w.schedule.length
  obtain ⟨hsteps, hended⟩ := (hattended.steps.leads hm hx).allows.shutdown hm
  rw [giveUp]
  dsimp only [Run.interleave]
  rw [hended.verdict_eq]
  exact ⟨rfl, _, hattended.steps.trans hsteps, hended⟩

/-- Workers are started one after the other.  If one cannot be started, those that have been
come to their ends. -/
theorem startWorkers_starts (hm : m.Disciplined D) (env : Env) {bs : List Binding}
    (hx : Run.Allows D p ctx (r, w)) (hreader : r.channel.hasReader = true)
    (hbs : p.partitions.drop r.workers.length = bs) :
    Starts m D p ctx (r, w) (startWorkers m ctx env p.position bs r w) := by
  induction bs generalizing r w with
  | nil => exact .started .refl hreader
  | cons b rest ih =>
      have hb : p.partitions[r.workers.length]? = some b := by
        have hhead := congrArg List.head? hbs
        rwa [List.head?_drop] at hhead
      have hrest : p.partitions.drop (r.workers.length + 1) = rest := by
        have htail := congrArg List.tail hbs
        rwa [List.tail_drop] at htail
      have hnoAbort := w.noAbort_hire ctx r.token r.workers.length
      rw [startWorkers]
      cases hhired : w.hire ctx r.token r.workers.length with
      | mk hired w₁ =>
          rw [hhired] at hnoAbort
          cases hired with
          | error e =>
              have hrefuse := Run.Step.refuse (m := m) (p := p) hhired
              obtain ⟨hsame, hconcludes⟩ := giveUp_concludes hm (hrefuse.leads hm hx).allows e
              dsimp only
              rw [hsame]
              exact .failed hnoAbort.ne_aborted (hconcludes.after (.single hrefuse))
          | ok context =>
              have hspawn := Run.Step.spawn (m := m) env hb hhired
              have hallows := (hspawn.leads hm hx).allows
              have hattended := hallows.attended_mingle hm w₁.recordStarted.schedule.length
              refine .after (.head hspawn hattended.steps)
                (ih (hattended.steps.leads hm hallows).allows
                  (hattended.reader.trans hreader) ?_)
              rw [hattended.started]
              dsimp only
              rwa [List.length_append]

theorem noAbort_checkMode (p : Partitioning) (ctx : Context) (w : World) :
    NoAbort (checkMode p ctx w) := by
  unfold checkMode
  split
  · exact nofun
  · split
    · exact nofun
    · split
      · exact nofun
      · exact nofun

/-- Before the first worker is started, the run can be refused. -/
theorem startRun_cases (hm : m.Disciplined D) (base : CursorBase)
    (hw : checkMode p ctx w = .ok () → w.Clear ctx.config.mode 0) :
    (∃ e, e ≠ .aborted ∧ startRun m p ctx base w = (.error e, w)) ∨
      checkMode p ctx w = .ok () ∧
        Starts m D p ctx (begun p ctx w) (startRun m p ctx base w) := by
  have hchecked := noAbort_checkMode p ctx w
  unfold startRun
  cases hmode : checkMode p ctx w with
  | error e =>
      rw [hmode] at hchecked
      exact .inl ⟨e, hchecked.ne_aborted, rfl⟩
  | ok _ =>
      have henv := base.noAbort_currentEnv
      dsimp only
      cases hcurrent : base.currentEnv with
      | error e =>
          rw [hcurrent] at henv
          exact .inl ⟨e, henv.ne_aborted, rfl⟩
      | ok env =>
          exact .inr ⟨rfl, startWorkers_starts hm env (allows_begun hmode (hw hmode)) rfl rfl⟩

/-! ## Taking rows -/

/-- What it leads to when the next row of a run is asked for. -/
inductive Takes (m : Machine σ) (D : Discipline σ) (p : Partitioning) (ctx : Context)
    (x : Run σ × World) : Outcome (State σ) (Option Row) → Prop where
  | row {r : Run σ} {s : State σ} {w : World} {row : Row} (hsteps : Steps m p ctx x (r, w))
      (hreader : r.channel.hasReader = true) (hactive : s.base.state = .active)
      (hrun : s.run = some r) : Takes m D p ctx x ⟨.ok (some row), s, w⟩
  | ended {result : Except QueryError (Option Row)} {s : State σ} {w : World}
      (hresult : NoAbort result) (hrow : ∀ row, result ≠ .ok (some row))
      (h : Concludes m D p ctx x w) (hrun : s.run = none) : Takes m D p ctx x ⟨result, s, w⟩

theorem Takes.after {o : Outcome (State σ) (Option Row)} (h : Steps m p ctx x y)
    (ho : Takes m D p ctx y o) : Takes m D p ctx x o := by
  cases ho with
  | row hsteps hreader hactive hrun => exact .row (h.trans hsteps) hreader hactive hrun
  | ended hresult hrow hconcludes hrun => exact .ended hresult hrow (hconcludes.after h) hrun

theorem fail_takes (hm : m.Disciplined D) (hx : Run.Allows D p ctx (r, w)) (s : State σ)
    (hrun : s.run = some r) {e : QueryError} (he : e ≠ .aborted) :
    Takes m D p ctx (r, w) (fail m s e w) := by
  obtain ⟨hsteps, hended⟩ := hx.shutdown hm
  rw [fail, hrun]
  exact .ended (.error he) (fun _ hrow => by cases hrow) ⟨_, hsteps, hended⟩ rfl

theorem complete_takes (hm : m.Disciplined D) (hx : Run.Allows D p ctx (r, w)) (s : State σ) :
    Takes m D p ctx (r, w) (complete m s r w) := by
  obtain ⟨hsteps, hended⟩ := hx.shutdown hm
  rw [complete]
  dsimp only
  rw [hended.verdict_eq]
  exact .ended (.ok none) (fun _ hrow => by cases hrow) ⟨_, hsteps, hended⟩ rfl

/-- There is a row or the run comes to its end, since every report and every timeout leaves less
to wait for. -/
theorem receive_takes (hm : m.Disciplined D) {fuel : Nat} (hx : Run.Allows D p ctx (r, w))
    (hreader : r.channel.hasReader = true) (hrun : s.run = some r)
    (hactive : s.base.state = .active) (hfuel : w.schedule.length + r.live < fuel) :
    Takes m D p ctx (r, w) (receive m ctx fuel s w) := by
  induction fuel generalizing r s w with
  | zero => exact absurd hfuel (Nat.not_lt_zero _)
  | succ fuel ih =>
      have hlook : Run.Step m p ctx (r, w) (r, (w.check ctx).2) := .look r w ctx
      have hallows := (hlook.leads hm hx).allows
      have hchecked := w.noAbort_check ctx
      have hschedule : (w.check ctx).2.schedule.length = w.schedule.length := rfl
      rw [receive]
      generalize w.check ctx = checked at hlook hallows hchecked hschedule
      obtain ⟨e | _, w₁⟩ := checked
      · exact .after (.single hlook) (fail_takes hm hallows s hrun hchecked.ne_aborted)
      · dsimp only at hlook hallows hschedule ⊢
        rw [hrun]
        dsimp only
        apply Takes.after (.single hlook)
        by_cases hlive : r.live = 0
        · rw [if_pos hlive]
          exact complete_takes hm hallows s
        · rw [if_neg hlive]
          have hwaits := hallows.await hm hreader
          generalize r.await m w₁ = received at hwaits
          cases hwaits with
          | @message r' w' message hattended hmessage =>
              have hleads := hattended.steps.leads hm hallows
              have hreader' := hattended.reader.trans hreader
              have hnote : ∀ i, Run.Step m p ctx (r', w') (r'.note i, w') :=
                fun i => .note r' w' i
              apply Takes.after hattended.steps
              cases message with
              | row i row =>
                  have hmingled := hleads.allows.attended_mingle hm w'.schedule.length
                  exact .row hmingled.steps (hmingled.reader.trans hreader') hactive rfl
              | finished i =>
                  have hlater : w'.schedule.length ≤ w₁.schedule.length :=
                    hleads.accounts.schedule
                  have hlive' : r'.live = r.live := hattended.live
                  refine .after (.single (hnote i))
                    (ih ((hnote i).leads hm hleads.allows).allows hreader' rfl hactive ?_)
                  show w'.schedule.length + (r'.live - 1) < fuel
                  omega
              | failed i e =>
                  exact .after (.single (hnote i))
                    (fail_takes hm ((hnote i).leads hm hleads.allows).allows _ rfl hmessage)
          | @disconnected r' w' hattended =>
              exact .after hattended.steps
                (fail_takes hm (hattended.steps.leads hm hallows).allows _ rfl
                  fun habort => by cases habort)
          | @timeout r' w' hattended hless =>
              have hlive' : r'.live = r.live := hattended.live
              exact .after hattended.steps
                (ih (hattended.steps.leads hm hallows).allows (hattended.reader.trans hreader)
                  rfl hactive (by omega))

end ParallelCursor
end OrderedQuery
