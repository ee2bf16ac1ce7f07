import OrderedQuery.Proofs.Cursor.Parallel.Steps

/-!
# Shutting down a run

After the reader has cancelled the workers and gone, no worker takes many more steps: it need not
wait for room in the channel, and it finds itself cancelled before it hands out another row.
Since the run does not get stuck, all workers come to their ends, whatever the order of their
steps.
-/

namespace OrderedQuery

/-- At least as many steps as a worker can take that has been cancelled and has no reader. -/
def Phase.remaining : Phase → Nat
  | .begin => 6
  | .opening => 5
  | .pulling | .sending _ => 4
  | .closing _ => 3
  | .ending _ => 2
  | .reporting _ => 1
  | .ended | .aborted => 0

namespace Worker

variable {σ : Type} {m : Machine σ} {D : Discipline σ} {ctx context : Context} {token : Token}
  {k : Worker σ} {c : σ} {ch : Channel} {w : World}

theorem remaining_le_stepsLeft : k.phase.remaining ≤ k.stepsLeft m w := by
  unfold stepsLeft pending
  cases k.phase with
  | begin => exact Nat.le_add_left 6 _
  | opening => exact Nat.le_add_left 5 _
  | pulling => exact Nat.le_add_left 4 _
  | sending row =>
      simp only [Phase.remaining]
      omega
  | _ => exact Nat.le_refl _

theorem isDone_of_remaining_eq_zero (h : k.phase.remaining = 0) : k.isDone = true := by
  unfold isDone
  cases hphase : k.phase with
  | ended => rfl
  | aborted => rfl
  | _ => rw [hphase] at h; cases h

/-- A worker that asks its cursor for a row after it has been cancelled does not send one. -/
theorem remaining_pull (hm : m.Disciplined D)
    (h : Allows D ctx token ⟨context, c, .pulling⟩ w)
    (hcancelled : w.signals.isCancelled context.token = true) :
    (Worker.pull m ⟨context, c, .pulling⟩ w).1.phase.remaining < 4 := by
  obtain ⟨hleads, hresult⟩ := hm.next (h.cursor rfl)
  have hlater := Signals.isCancelled_mono hleads.accounts.raised hcancelled
  unfold Worker.pull
  dsimp only
  generalize m.next context c w = o at hlater hresult
  obtain ⟨e | row, c', w'⟩ := o
  · dsimp only
    rw [stop_eq hresult.ne_aborted]
    exact Nat.lt_succ_self 3
  · cases row with
    | none => exact Nat.lt_succ_self 3
    | some row =>
        have hfound := World.check_eq_error hlater
        dsimp only
        generalize w'.check context = x at hfound
        obtain ⟨result, w''⟩ := x
        obtain rfl : result = .error .cancelled := hfound
        exact Nat.lt_succ_self 3

theorem remaining_openCursor (hm : m.Disciplined D)
    (h : Allows D ctx token ⟨context, c, .opening⟩ w) :
    (Worker.openCursor m ⟨context, c, .opening⟩ w).1.phase.remaining < 5 := by
  obtain ⟨-, hresult⟩ := hm.openTop (h.cursor rfl)
  unfold Worker.openCursor
  dsimp only
  generalize m.openTop context c w = o at hresult
  obtain ⟨e | goes, c', w'⟩ := o
  · dsimp only
    rw [stop_eq hresult.ne_aborted]
    simp [Phase.remaining]
  · cases goes with
    | false => simp [Phase.remaining]
    | true => exact Nat.lt_succ_self 4

/-- Each step of a worker that has been cancelled and has no reader brings it closer to its
end. -/
theorem remaining_step (hm : m.Disciplined D) (h : k.Allows D ctx token w)
    (hcancelled : w.signals.isCancelled token = true) (hreader : ch.hasReader = false)
    (hcan : k.canStep ch w = true) (i : Nat) :
    (k.step m i ch w).1.phase.remaining < k.phase.remaining := by
  obtain ⟨context, c, phase⟩ := k
  obtain rfl : context.token = token := h.orderly.token
  unfold Worker.step
  cases phase with
  | begin =>
      simp only [beginTransaction]
      generalize w.beginWork context = x
      obtain ⟨_ | _, w'⟩ := x
      · simp [Phase.remaining]
      · exact Nat.lt_succ_self 5
  | opening => exact remaining_openCursor hm h
  | pulling => exact remaining_pull hm h hcancelled
  | sending row =>
      simp only [hreader, Bool.false_eq_true, if_false]
      exact Nat.lt_succ_self 3
  | closing pumped => exact Nat.lt_succ_self 2
  | ending result =>
      cases result with
      | ok _ => exact Nat.lt_succ_self 1
      | error e => exact Nat.lt_succ_self 1
  | reporting result => exact Nat.lt_succ_self 0
  | ended => cases hcan
  | aborted => cases hcan

end Worker

namespace Run

open scoped CoreInstances

variable {σ : Type} {m : Machine σ} {D : Discipline σ} {p : Partitioning} {ctx : Context}
  {r : Run σ} {i : Nat} {w : World} {x : Run σ × World}

/-- At least as many steps as the workers can take after they have been cancelled and have no
reader. -/
def remaining (r : Run σ) : Nat :=
  (r.workers.map fun k => k.phase.remaining).sum

theorem remaining_le_stepsLeft : r.remaining ≤ r.stepsLeft m w :=
  List.sum_map_le_sum_map fun k _ => k.remaining_le_stepsLeft

/-- The run is being shut down: its workers have been cancelled and have no reader. -/
structure Ending (x : Run σ × World) : Prop where
  cancelled : x.2.signals.isCancelled x.1.token = true
  reader : x.1.channel.hasReader = false

/-- Every worker has come to its end, with its transaction committed or abandoned, and nothing
is left of any run of workers below it. -/
def Ended (D : Discipline σ) (r : Run σ) : Prop :=
  ∀ k ∈ r.workers, k.phase = .ended ∧ D.Rests k.cursor

theorem Ended.dues_eq_zero (h : r.Ended D) : r.dues D = 0 := by
  apply Dues.sum_map_eq_zero
  intro k hmem
  obtain ⟨hphase, hrests⟩ := h k hmem
  rw [Worker.dues_of_rests hrests, hphase]
  rfl

theorem Orderly.ended (h : r.Orderly D p ctx) (hdone : r.allDone = true) : r.Ended D := by
  intro k hmem
  have hworker := h.workers k hmem
  have hreturns := hworker.returns
  have hk := List.all_eq_true.mp hdone k hmem
  have hphase : k.phase = .ended := by
    unfold Worker.isDone at hk
    cases hphase : k.phase with
    | ended => rfl
    | aborted => rw [hphase] at hreturns; cases hreturns
    | _ => rw [hphase] at hk; cases hk
  exact ⟨hphase, hworker.unused (by rw [hphase]; trivial)⟩

theorem Ended.verdict_eq (h : r.Ended D) : r.verdict = .ok () := by
  have hdone : r.allDone = true := by
    apply List.all_eq_true.mpr
    intro k hmem
    rw [Worker.isDone, (h k hmem).1]
  have hnone : r.workers.findIdx? Worker.isAborted = none := by
    apply List.findIdx?_eq_none_iff.mpr
    intro k hmem
    rw [Worker.isAborted, (h k hmem).1]
  rw [verdict, if_pos hdone, hnone]

theorem stepWorker_token (r : Run σ) : (r.stepWorker m i w).1.token = r.token := by
  unfold stepWorker
  split <;> rfl

/-- While a run is being shut down, a step brings it closer to its end. -/
theorem Ending.stepWorker (hm : m.Disciplined D) (hx : Allows D p ctx (r, w))
    (he : Ending (r, w)) (hi : i ∈ r.ready w) :
    Ending (r.stepWorker m i w) ∧ (r.stepWorker m i w).1.remaining < r.remaining := by
  obtain ⟨k, hk, hcan⟩ := mem_ready_iff.mp hi
  have hworker := hx.worker hk
  have hraised := (hx.stepWorker hm i).accounts.raised
  have hless : (k.step m i r.channel w).1.phase.remaining < k.phase.remaining :=
    Worker.remaining_step hm hworker he.cancelled he.reader hcan i
  have hreader := (hworker.step_channel (m := m) hx.orderly.channel i).2
  refine ⟨⟨?_, ?_⟩, ?_⟩
  · rw [stepWorker_token]
    exact Signals.isCancelled_mono hraised he.cancelled
  · unfold Run.stepWorker
    rw [hk]
    exact hreader.trans he.reader
  · have hchange := List.sum_map_set (fun k => k.phase.remaining) hk
      (k.step m i r.channel w).1
    unfold Run.stepWorker remaining
    rw [hk]
    dsimp only
    omega

theorem allDone_of_remaining_eq_zero (h : r.remaining = 0) : r.allDone = true := by
  apply List.all_eq_true.mpr
  intro k hmem
  apply Worker.isDone_of_remaining_eq_zero
  exact List.sum_eq_zero_iff_forall_eq_nat.mp h _ (List.mem_map_of_mem hmem)

/-- A run that is being shut down comes to its end by steps of its workers. -/
theorem Ending.settle (hm : m.Disciplined D) {fuel : Nat} (hx : Allows D p ctx (r, w))
    (he : Ending (r, w)) (hfuel : r.remaining ≤ fuel) :
    Steps m p ctx (r, w) (r.settle m fuel w) ∧ (r.settle m fuel w).1.Ended D := by
  induction fuel generalizing r w with
  | zero =>
      exact ⟨.refl, hx.orderly.ended (allDone_of_remaining_eq_zero (Nat.le_zero.mp hfuel))⟩
  | succ fuel ih =>
      rw [Run.settle]
      cases hready : r.ready w with
      | nil =>
          refine ⟨.refl, hx.orderly.ended ?_⟩
          by_contra hnot
          refine hx.not_stuck ⟨Bool.eq_false_iff.mpr hnot, hready, ?_⟩
          intro hreader
          rw [he.reader] at hreader
          cases hreader
      | cons i others =>
          dsimp only
          generalize hchosen :
            ((i :: others)[w.draw.1 % (others.length + 1)]?).getD i = chosen
          have hmem : chosen ∈ r.ready w := by
            rw [hready, ← hchosen]
            exact getD_getElem?_mem i others _
          have hdrawn : chosen ∈ r.ready w.draw.2 := by rwa [ready_draw]
          have hchoose : Step m p ctx (r, w) (r, w.draw.2) := .choose r w
          have hallows := (hchoose.leads hm hx).allows
          have he' : Ending (r, w.draw.2) :=
            ⟨Signals.isCancelled_mono w.passes_draw.raised he.cancelled, he.reader⟩
          obtain ⟨he'', hless⟩ := he'.stepWorker hm hallows hdrawn
          have hfuel' : (r.stepWorker m chosen w.draw.2).1.remaining ≤ fuel :=
            Nat.le_of_lt_succ (Nat.lt_of_lt_of_le hless hfuel)
          obtain ⟨hsteps, hended⟩ := ih (hallows.stepWorker hm chosen).allows he'' hfuel'
          exact ⟨.head hchoose (.head (.worker hdrawn) hsteps), hended⟩

/-- Shutting down a run leads it to its end by steps, whatever state it is in. -/
theorem Allows.shutdown (hm : m.Disciplined D) (hx : Allows D p ctx (r, w)) :
    Steps m p ctx (r, w) (r.shutdown m w) ∧ (r.shutdown m w).1.Ended D := by
  have hcancel : Step m p ctx (r, w) (r, { w with signals := w.signals.cancel r.token }) :=
    .cancel r w r.token
  have hhangUp : Step m p ctx (r, { w with signals := w.signals.cancel r.token })
      ({ r with channel := r.channel.abandon }, { w with signals := w.signals.cancel r.token }) :=
    .hangUp r _
  have hallows := (hhangUp.leads hm (hcancel.leads hm hx).allows).allows
  have hending : Ending ({ r with channel := r.channel.abandon },
      { w with signals := w.signals.cancel r.token }) :=
    ⟨w.signals.isCancelled_cancel hx.orderly.token, rfl⟩
  obtain ⟨hsteps, hended⟩ := hending.settle hm hallows remaining_le_stepsLeft
  exact ⟨.head hcancel (.head hhangUp hsteps), hended⟩

end Run
end OrderedQuery
