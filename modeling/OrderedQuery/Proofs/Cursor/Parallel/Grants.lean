import OrderedQuery.Proofs.Cursor.Evolution
import OrderedQuery.Proofs.Cursor.Parallel.Invariants
import OrderedQuery.Proofs.Cursor.Parallel.Opening

/-!
# Workers whose transactions are granted

An engine that refuses no transaction can still fail to begin or to commit one: if a session is in
a transaction already, or if it is in none any more.  Neither happens to a worker, since its
session is its own and its cursor leaves transactions alone.  So as long as no cursor fails, no
worker reports a failure, in whatever order the steps are taken.
-/

namespace OrderedQuery

namespace World

variable {w : World} {ctx : Context}

theorem check_ne_store (w : World) (ctx : Context) (refusal : StoreError) :
    (w.check ctx).1 ≠ .error (.store refusal) := by
  unfold check
  dsimp only
  split <;> rintro ⟨⟩

theorem beginWork_eq_ok (hrefusals : w.refusals = [])
    (hout : w.engine.inTransaction ctx.session = false) :
    (w.beginWork ctx).1 = .ok () := by
  unfold beginWork refuses Engine.begin
  simp only [hrefusals, hout, Bool.false_eq_true, if_false]

theorem commitWork_eq_ok (hrefusals : w.refusals = [])
    (hin : w.engine.inTransaction ctx.session = true) : (w.commitWork ctx).1 = .ok () := by
  obtain ⟨t, ht⟩ := Option.isSome_iff_exists.mp hin
  unfold commitWork refuses Engine.commit
  simp only [hrefusals, ht, Bool.false_eq_true, if_false]
  cases t.mode <;> rfl

end World

namespace Phase

/-- The worker is in a transaction. -/
def Inside : Phase → Prop
  | .opening | .pulling | .sending _ | .closing _ | .ending _ => True
  | _ => False

/-- The worker is not about to report a failure. -/
def Succeeding : Phase → Prop
  | .reporting result => result = .ok ()
  | _ => True

end Phase

/-! ## A worker on its own -/

namespace Worker

variable {σ : Type} {m : Machine σ} {store : Store} {i : Nat} {context : Context} {env : Env}
  {k : Worker σ} {sent : List Message} {w : World}

/-- If the worker is to be in its transaction after an operation, it is. -/
def StaysInside (k : Worker σ) (x : Worker σ × World) : Prop :=
  x.1.phase.Inside → x.2.engine.inTransaction k.context.session = true

theorem staysInside_stop (cursor : σ) (e : QueryError)
    (hw : w.engine.inTransaction k.context.session = true) :
    k.StaysInside (k.stop m cursor e w) := by
  intro hinside
  unfold stop at hinside ⊢
  split
  · rename_i he
    rw [if_pos he] at hinside
    cases hinside
  · exact hw

theorem staysInside_beginTransaction (k : Worker σ) (w : World) :
    k.StaysInside (k.beginTransaction w) := by
  intro hinside
  unfold beginTransaction at hinside ⊢
  rcases w.beginWork_cases k.context with ⟨w', hbegun, -, hheld⟩ | ⟨e, w', hbegun, -⟩
  · rw [hbegun]
    exact hheld
  · rw [hbegun] at hinside
    cases hinside

theorem staysInside_openCursor (hm : m.Moves World.Passes)
    (hw : w.engine.inTransaction k.context.session = true) :
    k.StaysInside (k.openCursor m w) := by
  have hopened := hm.openTop k.context k.cursor w
  rw [← Engine.inTransaction_congr hopened.active] at hw
  unfold openCursor
  generalize m.openTop k.context k.cursor w = o at hw
  obtain ⟨e | _ | _, cursor, w'⟩ := o
  · exact staysInside_stop cursor e hw
  · exact fun _ => hw
  · exact fun _ => hw

theorem staysInside_pull (hm : m.Moves World.Passes)
    (hw : w.engine.inTransaction k.context.session = true) : k.StaysInside (k.pull m w) := by
  have hpulled := hm.next k.context k.cursor w
  rw [← Engine.inTransaction_congr hpulled.active] at hw
  unfold pull
  generalize m.next k.context k.cursor w = o at hw
  obtain ⟨e | _ | row, cursor, w'⟩ := o
  · exact staysInside_stop cursor e hw
  · exact fun _ => hw
  · rw [← Engine.inTransaction_congr (w'.passes_check k.context).active] at hw
    dsimp only
    generalize w'.check k.context = x at hw
    obtain ⟨_ | _, w''⟩ := x
    · exact fun _ => hw
    · exact fun _ => hw

theorem staysInside_close (hm : m.Moves World.Passes) (pumped : Except QueryError Unit)
    (hw : w.engine.inTransaction k.context.session = true) :
    k.StaysInside (k.close m pumped w) := by
  intro _
  have hclosed : w.Passes (k.close m pumped w).2 :=
    (hm.closeTop k.context k.cursor w).trans (hm.destroy k.context _ _)
  exact (Engine.inTransaction_congr hclosed.active _).trans hw

/-- While its cursor leaves transactions alone, a worker that uses it stays in its own. -/
theorem inTransaction_advance (hm : m.Moves World.Passes)
    (hin : k.phase.Inside → w.engine.inTransaction k.context.session = true)
    (hinside : (k.advance m i w).1.phase.Inside) :
    (k.advance m i w).2.2.engine.inTransaction k.context.session = true := by
  obtain ⟨context, cursor, phase⟩ := k
  unfold advance step at hinside ⊢
  cases phase with
  | begin => exact staysInside_beginTransaction _ w hinside
  | opening => exact staysInside_openCursor hm (hin trivial) hinside
  | pulling => exact staysInside_pull hm (hin trivial) hinside
  | sending row => exact hin trivial
  | closing pumped => exact staysInside_close hm pumped (hin trivial) hinside
  | ending result =>
      cases result with
      | ok _ => cases hinside
      | error e => cases hinside
  | _ => cases hinside

theorem Alone.inTransaction (hm : m.Moves World.Passes)
    (h : Alone m store i context env k sent w) (hinside : k.phase.Inside) :
    w.engine.inTransaction context.session = true := by
  induction h with
  | start hw => cases hinside
  | wait h hw ih =>
      rw [Engine.inTransaction_congr hw.active]
      exact ih hinside
  | step h ih =>
      have hcontext := h.context_eq
      rw [← hcontext] at ih ⊢
      exact inTransaction_advance hm ih hinside

theorem succeeding_stop (k : Worker σ) (cursor : σ) (e : QueryError) (w : World) :
    (k.stop m cursor e w).1.phase.Succeeding := by
  unfold stop
  split <;> exact trivial

theorem succeeding_openCursor (k : Worker σ) (w : World) :
    (k.openCursor m w).1.phase.Succeeding := by
  unfold openCursor
  generalize m.openTop k.context k.cursor w = o
  obtain ⟨e | _ | _, cursor, w'⟩ := o
  · exact succeeding_stop k cursor e w'
  · exact trivial
  · exact trivial

theorem succeeding_pull (k : Worker σ) (w : World) : (k.pull m w).1.phase.Succeeding := by
  unfold pull
  generalize m.next k.context k.cursor w = o
  obtain ⟨e | _ | row, cursor, w'⟩ := o
  · exact succeeding_stop k cursor e w'
  · exact trivial
  · dsimp only
    rcases w'.check k.context with ⟨_ | _, w''⟩
    · exact trivial
    · exact trivial

/-- A session that nobody has used can begin a transaction. -/
theorem succeeding_beginTransaction (hrefusals : w.refusals = [])
    (hactive : w.engine.active = []) : (k.beginTransaction w).1.phase.Succeeding := by
  have hout : w.engine.inTransaction k.context.session = false := by
    rw [Engine.inTransaction, Engine.transaction?, hactive]
    rfl
  have hbegun := World.beginWork_eq_ok hrefusals hout
  unfold beginTransaction
  generalize w.beginWork k.context = x at hbegun
  obtain ⟨result, w'⟩ := x
  obtain rfl : result = .ok () := hbegun
  exact trivial

/-- A worker whose cursor has not failed does not come to report a failure. -/
theorem Alone.advance_succeeds (hm : m.Moves World.Passes)
    (h : Alone m store i context env k sent w) (hrefusals : w.refusals = [])
    (hends : ∀ result, k.phase = .ending result → result = .ok ()) (hk : k.phase.Succeeding) :
    (k.advance m i w).1.phase.Succeeding ∧ Job.Unfailed (k.advance m i w).2.1 := by
  have hheld : k.phase.Inside → w.engine.inTransaction k.context.session = true := by
    rw [h.context_eq]
    exact h.inTransaction hm
  have hactive : k.phase = .begin → w.engine.active = [] := h.active_of_begin
  obtain ⟨context', cursor, phase⟩ := k
  unfold advance Worker.step
  cases phase with
  | begin => exact ⟨succeeding_beginTransaction hrefusals (hactive rfl), List.forall_mem_nil _⟩
  | opening => exact ⟨succeeding_openCursor _ w, List.forall_mem_nil _⟩
  | pulling => exact ⟨succeeding_pull _ w, List.forall_mem_nil _⟩
  | sending row => exact ⟨trivial, List.forall_mem_singleton.mpr rfl⟩
  | closing pumped => exact ⟨trivial, List.forall_mem_nil _⟩
  | ending result =>
      obtain rfl := hends result rfl
      exact ⟨World.commitWork_eq_ok hrefusals (hheld trivial), List.forall_mem_nil _⟩
  | reporting result =>
      obtain rfl : result = .ok () := hk
      exact ⟨trivial, List.forall_mem_singleton.mpr rfl⟩
  | ended => exact ⟨trivial, List.forall_mem_nil _⟩
  | aborted => exact ⟨trivial, List.forall_mem_nil _⟩

end Worker

/-! ## A run -/

namespace Job

variable {σ : Type} {j : Job σ} {log : List Message} {r : Run σ} {w : World}

/-- Cursors of workers leave transactions alone and do not fail. -/
structure Succeeds (j : Job σ) : Prop where
  machine_local : j.machine.Local j.Owns
  evolving : j.machine.Evolving
  passes : j.machine.Moves World.Passes
  ends : ∀ e ∈ j.envs, ∀ {i context k sent w}, context.config = j.config →
    Worker.Alone j.machine j.store i context e k sent w →
      ∀ result, k.phase = .ending result → result = .ok ()

/-- The engine refuses no transaction, and nobody is about to report a failure or has done so. -/
structure Smooth (r : Run σ) (w : World) : Prop where
  refusals : w.refusals = []
  workers : ∀ k ∈ r.workers, k.phase.Succeeding
  queue : Unfailed r.channel.queue

theorem smooth_start (hrefusals : w.refusals = []) (token : Token) (capacity count : Nat) :
    Smooth (σ := σ) (.start token capacity count) w :=
  ⟨hrefusals, List.forall_mem_nil _, List.forall_mem_nil _⟩

theorem Smooth.stepWorker (hj : j.Succeeds) (hc : j.Company log r w) (h : Smooth r w) (i : Nat) :
    Smooth (r.stepWorker j.machine i w).1 (r.stepWorker j.machine i w).2 := by
  have hrefusals := (Run.stepWorker_evolves hj.evolving i r w).refusals h.refusals
  cases hk : r.workers[i]? with
  | none =>
      have hstill : r.stepWorker j.machine i w = (r, w) := by rw [Run.stepWorker, hk]
      rw [hstill]
      exact h
  | some k =>
      obtain ⟨holdings, hc⟩ := hc
      obtain ⟨e, he, ha⟩ := hc.attends i k hk
      -- what the worker does, it does in the world without the others as well
      have hle := Holdings.le_upto_grow ha.sessions ha.flags
      obtain ⟨honly, -, -⟩ := Worker.advance_within (i := i) hj.machine_local
        (ha.grow_fits hc.steady) (ha.owned.mono hj.machine_local hle)
      rw [Holdings.only_grow hc.steady.sound] at honly
      have hsucceeds := ha.alone.advance_succeeds hj.passes h.refusals
        (hj.ends e (List.mem_of_getElem? he) ha.config ha.alone)
        (h.workers k (List.mem_of_getElem? hk))
      rw [honly] at hsucceeds
      obtain ⟨hphase, hmessages⟩ := hsucceeds
      rw [Run.stepWorker_eq hc.reader hk] at hrefusals ⊢
      refine ⟨hrefusals, ?_, ?_⟩
      · intro k' hmem
        rcases List.mem_or_eq_of_mem_set hmem with hmem | rfl
        · exact h.workers k' hmem
        · exact hphase
      · intro message hmem
        rcases List.mem_append.mp hmem with hmem | hmem
        · exact h.queue message hmem
        · exact hmessages message hmem

/-- Whoever takes the next step, nobody comes to report a failure. -/
theorem Succeeds.invariant (hj : j.Succeeds) (log : List Message) :
    Run.Invariant j.machine fun r w => j.Company log r w ∧ Smooth r w where
  step h i := ⟨(h.1.stepWorker hj.machine_local i).1, h.2.stepWorker hj h.1 i⟩
  draw h := ⟨h.1.draw, (World.evolves_draw _).refusals h.2.refusals, h.2.workers, h.2.queue⟩

theorem Succeeds.welcomes (hj : j.Succeeds) : ParallelCursor.Welcomes j Smooth where
  spawn h := ⟨World.Evolves.refusals (.single .spawn) h.refusals, h.workers, h.queue⟩
  hire context env h := by
    refine ⟨h.refusals, ?_, h.queue⟩
    intro k hmem
    rcases List.mem_append.mp hmem with hmem | hmem
    · exact h.workers k hmem
    · rw [List.mem_singleton.mp hmem]
      exact trivial
  interleave hc h := ((hj.invariant []).interleave ⟨hc, h⟩).2

end Job

/-! ## The reader -/

namespace ParallelCursor

variable {σ : Type} {j : Job σ} {ctx : Context} {s : State σ} {w : World}

/-- In the run of a cursor, if it has one, nobody comes to report a failure. -/
def Smooth (j : Job σ) (s : State σ) (w : World) : Prop :=
  ∀ r, s.run = some r → ∃ log, j.Company log r w ∧ Job.Smooth r w

/-- The cursor has not failed because of a transaction. -/
structure Granted {α : Type} (j : Job σ) (o : Outcome (State σ) α) : Prop where
  smooth : Smooth j o.state o.world
  result : ∀ refusal, o.result ≠ .error (.store refusal)

theorem smooth_of_run_eq_none (hrun : s.run = none) : Smooth j s w := by
  intro r hr
  rw [hrun] at hr
  cases hr

theorem granted_ok {α : Type} {a : α} (h : Smooth j s w) : Granted j ⟨.ok a, s, w⟩ := by
  refine ⟨h, ?_⟩
  rintro refusal ⟨⟩

theorem granted_error {α : Type} {e : QueryError} (h : Smooth j s w)
    (he : ∀ refusal, e ≠ .store refusal) : Granted (α := α) j ⟨.error e, s, w⟩ :=
  ⟨h, fun refusal hresult => he refusal (Except.error.inj hresult)⟩

theorem verdict_ne_store (r : Run σ) (refusal : StoreError) :
    r.verdict ≠ .error (.store refusal) := by
  intro hverdict
  rw [Run.verdict] at hverdict
  split at hverdict
  · split at hverdict <;> cases hverdict
  · cases hverdict

theorem granted_complete {r : Run σ} : Granted j (complete j.machine s r w) := by
  unfold complete
  generalize r.shutdown j.machine w = x
  obtain ⟨r', w'⟩ := x
  dsimp only
  have hverdict := verdict_ne_store r'
  generalize r'.verdict = v at hverdict
  cases v with
  | ok u => exact granted_ok (smooth_of_run_eq_none rfl)
  | error e =>
      refine granted_error (smooth_of_run_eq_none rfl) ?_
      rintro refusal rfl
      exact hverdict refusal rfl

theorem granted_fail {e : QueryError} {r : Run σ} (hrun : s.run = some r)
    (he : ∀ refusal, e ≠ .store refusal) : Granted j (fail j.machine s e w) := by
  rw [fail, hrun]
  exact granted_error (smooth_of_run_eq_none rfl) he

theorem granted_receive (hj : j.Succeeds)
    (hwatch : ∀ f ∈ ctx.token.flags, f ∈ j.token.flags) (fuel : Nat) (h : Smooth j s w) :
    Granted j (receive j.machine ctx fuel s w) := by
  induction fuel generalizing s w with
  | zero => exact granted_error h fun refusal => by rintro ⟨⟩
  | succ fuel ih =>
      obtain ⟨base, source, _ | r⟩ := s
      · have hchecked := w.check_ne_store ctx
        rw [receive]
        generalize w.check ctx = x at hchecked
        obtain ⟨e | u, w'⟩ := x
        · refine granted_error (smooth_of_run_eq_none rfl) ?_
          rintro refusal rfl
          exact hchecked refusal rfl
        · exact granted_ok (smooth_of_run_eq_none rfl)
      · obtain ⟨log, hc, hr⟩ := h r rfl
        simp only [receive, hc.steady.check hwatch]
        split
        · exact granted_complete
        · have hreceives := (hj.invariant log).await ⟨hc, hr⟩
          generalize r.await j.machine w = x at hreceives
          cases hreceives with
          | @message r' w' message queue h' hqueue =>
              obtain ⟨hc', hr'⟩ := h'
              have hc'' := hc'.receive hqueue
              have hunfailed := hr'.queue
              rw [hqueue] at hunfailed
              obtain ⟨hmessage, hqueue'⟩ := List.forall_mem_cons.mp hunfailed
              have hr'' : Job.Smooth { r' with channel := { r'.channel with queue } } w' :=
                ⟨hr'.refusals, hr'.workers, hqueue'⟩
              cases message with
              | row i row =>
                  refine granted_ok ?_
                  rintro _ ⟨⟩
                  exact ⟨_, (hj.invariant _).interleave ⟨hc'', hr''⟩⟩
              | finished i =>
                  refine ih ?_
                  rintro _ ⟨⟩
                  exact ⟨_, hc''.note i, hr''.refusals, hr''.workers, hr''.queue⟩
              | failed i e => cases hmessage
          | disconnected h' => exact granted_fail rfl fun refusal => by rintro ⟨⟩
          | timeout h' =>
              refine ih ?_
              rintro _ ⟨⟩
              exact ⟨log, h'⟩
          | stalled h' =>
              refine granted_error ?_ fun refusal => by rintro ⟨⟩
              rintro _ ⟨⟩
              exact ⟨log, h'⟩

theorem granted_next (hj : j.Succeeds) (hwatch : ∀ f ∈ ctx.token.flags, f ∈ j.token.flags)
    (h : Smooth j s w) : Granted j (next j.machine ctx s w) := by
  rw [next, CursorBase.checkNext]
  cases s.base.state with
  | active => exact granted_receive hj hwatch _ h
  | _ => exact granted_error h fun refusal => by rintro ⟨⟩

/-- As long as no worker fails, draining a run does not end because of a transaction. -/
theorem granted_drainWith (hj : j.Succeeds)
    (hwatch : ∀ f ∈ ctx.token.flags, f ∈ j.token.flags) (p : Partitioning) (n : Nat)
    (h : Smooth j s w) : Granted j ((machine j.machine p).drainWith ctx n s w).2 := by
  induction n generalizing s w with
  | zero => exact granted_error h fun refusal => by rintro ⟨⟩
  | succ n ih =>
      have hnext := granted_next hj hwatch h
      have hsame : (machine j.machine p).next ctx s w = next j.machine ctx s w := rfl
      rw [Machine.drainWith, hsame]
      generalize next j.machine ctx s w = o at hnext
      obtain ⟨e | _ | row, s', w'⟩ := o
      · refine granted_error hnext.smooth ?_
        rintro refusal rfl
        exact hnext.result refusal rfl
      · exact granted_ok hnext.smooth
      · exact ih hnext.smooth

end ParallelCursor
end OrderedQuery
