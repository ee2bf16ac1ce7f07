import OrderedQuery.Proofs.Cursor.Cancellation
import OrderedQuery.Proofs.Cursor.Parallel.Delivery
import OrderedQuery.Proofs.Cursor.Parallel.Invariants

/-!
# Parallel maps and the cancellation of their context

The reader of a parallel map looks at its token before it waits for a message, and again before it
ends a run in which nobody is expected to report any more.  Every worker has come to its end by
then, since each is counted until its report has been noted.  So ending such a run makes no worker
take a step, and nothing can be cancelled on the way to the end of the rows.
-/

namespace OrderedQuery

/-- The worker has reported its end. -/
def Phase.hasEnded : Phase → Bool
  | .ended => true
  | _ => false

open scoped CoreInstances

variable {σ : Type} {m : Machine σ} {ctx : Context}

namespace Worker

/-- How many reports a worker still owes. -/
def owes (k : Worker σ) : Nat :=
  if k.phase.hasEnded then 0 else 1

theorem owes_stop (k : Worker σ) (cursor : σ) (e : QueryError) (w : World) :
    (k.stop m cursor e w).1.owes = 1 := by
  rw [stop]
  split <;> rfl

theorem owes_openCursor (k : Worker σ) (w : World) : (k.openCursor m w).1.owes = 1 := by
  rw [openCursor]
  generalize m.openTop k.context k.cursor w = o
  obtain ⟨_ | _ | _, cursor, w'⟩ := o
  · exact owes_stop k cursor _ w'
  · rfl
  · rfl

theorem owes_pull (k : Worker σ) (w : World) : (k.pull m w).1.owes = 1 := by
  rw [pull]
  generalize m.next k.context k.cursor w = o
  obtain ⟨_ | _ | row, cursor, w'⟩ := o
  · exact owes_stop k cursor _ w'
  · rfl
  · dsimp only
    generalize w'.check k.context = x
    obtain ⟨_ | _, w''⟩ := x <;> rfl

theorem owes_endTransaction (k : Worker σ) (result : Except QueryError Unit) (w : World) :
    (k.endTransaction result w).1.owes = 1 := by
  cases result <;> rfl

theorem owes_beginTransaction (k : Worker σ) (w : World) :
    (k.beginTransaction w).1.owes = 1 := by
  rw [beginTransaction]
  generalize w.beginWork k.context = x
  obtain ⟨_ | _, w'⟩ := x <;> rfl

/-- A step of a worker with a reader either leaves its report to be made, or makes it. -/
theorem step_owes (i : Nat) (k : Worker σ) {ch : Channel} (hreader : ch.hasReader = true)
    (w : World) :
    (k.step m i ch w).2.1.hasReader = true ∧
      (k.step m i ch w).1.owes + (k.step m i ch w).2.1.queue.countP Message.isReport =
        k.owes + ch.queue.countP Message.isReport := by
  have hsend (message : Message) :
      (ch.send message).hasReader = true ∧
        (ch.send message).queue = ch.queue ++ [message] := by
    rw [Channel.send, if_pos hreader]
    exact ⟨hreader, rfl⟩
  have howes (h : k.phase.hasEnded = false) : k.owes = 1 := by
    rw [owes, h]
    rfl
  rw [step]
  cases hphase : k.phase with
  | begin => exact ⟨hreader, by rw [owes_beginTransaction, howes (by rw [hphase]; rfl)]⟩
  | opening => exact ⟨hreader, by rw [owes_openCursor, howes (by rw [hphase]; rfl)]⟩
  | pulling => exact ⟨hreader, by rw [owes_pull, howes (by rw [hphase]; rfl)]⟩
  | sending row =>
      dsimp only
      rw [if_pos hreader, howes (by rw [hphase]; rfl), (hsend _).2, List.countP_append]
      exact ⟨(hsend _).1, rfl⟩
  | closing pumped => exact ⟨hreader, by rw [howes (by rw [hphase]; rfl)]; rfl⟩
  | ending result =>
      exact ⟨hreader, by rw [owes_endTransaction, howes (by rw [hphase]; rfl)]⟩
  | reporting result =>
      have hreport := isReport_report i result
      dsimp only
      rw [howes (by rw [hphase]; rfl), (hsend _).2, List.countP_append, List.countP_singleton,
        if_pos hreport]
      exact ⟨(hsend _).1, by rw [Nat.add_comm 1, owes]; exact Nat.zero_add _⟩
  | ended => exact ⟨hreader, rfl⟩
  | aborted => exact ⟨hreader, rfl⟩

end Worker

namespace Run

/-- The run has a token of its own and a reader.  Every worker is counted until its report has been
noted, and so are `others` more. -/
structure Counted (ctx : Context) (others : Nat) (r : Run σ) : Prop where
  token : ∀ f ∈ r.token.flags.head?, f ∉ ctx.token.flags
  reader : r.channel.hasReader = true
  live : r.live =
    (r.workers.map Worker.owes).sum + r.channel.queue.countP Message.isReport + others

variable {others : Nat} {r : Run σ} {w : World}

theorem Counted.stepWorker (h : r.Counted ctx others) (i : Nat) (w : World) :
    (r.stepWorker m i w).1.Counted ctx others := by
  rw [Run.stepWorker]
  cases hk : r.workers[i]? with
  | none => exact h
  | some k =>
      obtain ⟨hreader, howes⟩ := k.step_owes (m := m) i h.reader w
      have hsum := List.sum_map_set Worker.owes hk (k.step m i r.channel w).1
      have hlive := h.live
      dsimp only
      generalize k.step m i r.channel w = stepped at hreader howes hsum
      obtain ⟨k', ch', w'⟩ := stepped
      refine ⟨h.token, hreader, ?_⟩
      dsimp only at howes hsum ⊢
      omega

theorem counted_invariant (ctx : Context) (others : Nat) :
    Invariant m fun r _ => Run.Counted (σ := σ) ctx others r where
  step h i := h.stepWorker i _
  draw h := h

theorem Counted.note (h : r.Counted ctx (others + 1)) (i : Nat) :
    (r.note i).Counted ctx others := by
  have hlive := h.live
  refine ⟨h.token, h.reader, ?_⟩
  dsimp only [Run.note]
  omega

/-- Taking a message counts its sender once more if the message is a report. -/
theorem Counted.take (h : r.Counted ctx 0) {message : Message} {queue : List Message}
    (hqueue : r.channel.queue = message :: queue) :
    Counted ctx (if message.isReport then 1 else 0)
      { r with channel := { r.channel with queue } } := by
  have hlive := h.live
  rw [hqueue, List.countP_cons] at hlive
  exact ⟨h.token, h.reader, by dsimp only; omega⟩

/-- When nobody is counted any more, shutting down the run makes nobody take a step. -/
theorem Counted.shutdown_eq (h : r.Counted ctx 0) (hlive : r.live = 0) (w : World) :
    (r.shutdown m w).2 = { w with signals := w.signals.cancel r.token } := by
  have hsum : (r.workers.map Worker.owes).sum = 0 := by
    have := h.live
    omega
  have hdone (k : Worker σ) (hk : k ∈ r.workers) : k.phase = .ended := by
    have howes := List.sum_eq_zero_iff_forall_eq_nat.mp hsum _ (List.mem_map_of_mem hk)
    rw [Worker.owes] at howes
    cases hphase : k.phase with
    | ended => rfl
    | _ => rw [hphase] at howes; cases howes
  have hsteps (w' : World) :
      stepsLeft m { r with channel := r.channel.abandon } w' = 0 := by
    rw [stepsLeft]
    apply List.sum_eq_zero_iff_forall_eq_nat.mpr
    intro n hn
    obtain ⟨k, hk, rfl⟩ := List.mem_map.mp hn
    rw [Worker.stepsLeft, hdone k hk]
  rw [shutdown, hsteps, settle]

end Run

/-! ## The reader -/

namespace ParallelCursor

/-- The run, if one is open, is as it should be while it is read. -/
def Sound (ctx : Context) (s : State σ) : Prop :=
  ∀ r, s.run = some r → r.Counted ctx 0

theorem sound_of_none {s : State σ} (h : s.run = none) : Sound ctx s := by
  intro r hr
  rw [h] at hr
  cases hr

theorem sound_of_some {s : State σ} {r : Run σ} (h : s.run = some r) (hr : r.Counted ctx 0) :
    Sound ctx s := by
  intro r' hr'
  rw [h] at hr'
  obtain rfl := Option.some.inj hr'
  exact hr

theorem startWorkers_sound {context : Context} (env : Env) (position : Nat)
    (bindings : List Binding) {r r' : Run σ} {w w' : World}
    (h : r.Counted ctx bindings.length)
    (hstarted : startWorkers m context env position bindings r w = (.ok r', w')) :
    r'.Counted ctx 0 := by
  induction bindings generalizing r w with
  | nil =>
      rw [startWorkers] at hstarted
      cases hstarted
      exact h
  | cons b rest ih =>
      rw [startWorkers] at hstarted
      generalize w.hire context r.token r.workers.length = x at hstarted
      obtain ⟨e | derived, w₁⟩ := x
      · cases hstarted
      · dsimp only at hstarted
        have hlive := h.live
        have hadded : Run.Counted ctx rest.length
            { r with workers := r.workers ++ [.start m derived (env.fork.set position b)] } := by
          refine ⟨h.token, h.reader, ?_⟩
          rw [List.length_cons] at hlive
          dsimp only
          rw [List.map_append, List.sum_append, List.map_singleton, List.sum_singleton, hlive]
          show _ = _ + 1 + _ + _
          omega
        exact ih ((Run.counted_invariant ctx rest.length).interleave hadded) hstarted

/-- A run that has been opened is counted, and its token is not the one it was opened with. -/
theorem openRun_sound (p : Partitioning) (s : State σ) {w : World} (hknows : w.Knows ctx)
    (hok : (openRun m p ctx s w).result = .ok ()) : Sound ctx (openRun m p ctx s w).state := by
  rw [openRun] at hok ⊢
  split at hok
  · cases hok
  · rename_i base hbase
    cases hstarted : startRun m p ctx base w with
    | mk result w' =>
    rw [hstarted] at hok
    cases result with
    | error e => cases hok
    | ok r =>
        refine sound_of_some rfl ?_
        rw [startRun] at hstarted
        split at hstarted
        · cases hstarted
        · split at hstarted
          · cases hstarted
          · refine startWorkers_sound _ _ _ ⟨?_, rfl, ?_⟩ hstarted
            · intro f hf hmem
              obtain rfl : w.signals.issued = f := Option.some.inj hf
              exact Nat.lt_irrefl _ (hknows _ hmem)
            · simp [Run.start]

theorem complete_sound (s : State σ) (r : Run σ) (w : World) :
    Sound ctx (complete m s r w).state := by
  rw [complete]
  dsimp only
  split <;> exact sound_of_none rfl

theorem fail_sound {s : State σ} (h : Sound ctx s) (e : QueryError) (w : World) :
    Sound ctx (fail m s e w).state := by
  rw [fail]
  split
  · exact h
  · exact sound_of_none rfl

/-- Cancelling a run does not cancel the context it was opened in. -/
theorem not_cancelled_cancel {r : Run σ} (h : r.Counted ctx 0) {w : World}
    (hlive : ¬ w.Cancelled ctx) :
    ¬ World.Cancelled ctx { w with signals := w.signals.cancel r.token } := by
  have htoken := h.token
  rw [World.Cancelled, Signals.cancel]
  cases hflags : r.token.flags with
  | nil => exact hlive
  | cons f flags =>
      rw [hflags] at htoken
      intro hcancelled
      obtain ⟨f', hmem, hraised⟩ := List.any_eq_true.mp hcancelled
      rcases List.mem_cons.mp (of_decide_eq_true hraised) with rfl | hraised
      · exact htoken f' rfl hmem
      · exact hlive (List.any_eq_true.mpr ⟨f', hmem, decide_eq_true hraised⟩)

/-- The end of the rows is not reported in a world in which the context has been cancelled. -/
def Honest (ctx : Context) (o : Outcome (State σ) (Option Row)) : Prop :=
  o.result = .ok none → ¬ o.world.Cancelled ctx

theorem honest_error {e : QueryError} {s : State σ} {w : World} :
    Honest ctx ⟨.error e, s, w⟩ := nofun

theorem honest_row {row : Row} {s : State σ} {w : World} :
    Honest ctx ⟨.ok (some row), s, w⟩ := nofun

theorem fail_honest (s : State σ) (e : QueryError) (w : World) :
    Honest ctx (fail m s e w) := by
  intro hnone
  rw [fail] at hnone
  split at hnone <;> cases hnone

theorem complete_honest (s : State σ) {r : Run σ} (h : r.Counted ctx 0) (hzero : r.live = 0)
    {w : World} (hlive : ¬ w.Cancelled ctx) : Honest ctx (complete m s r w) := by
  have hworld := h.shutdown_eq (m := m) hzero w
  rintro -
  rw [complete]
  dsimp only
  split
  · dsimp only
    rw [hworld]
    exact not_cancelled_cancel h hlive
  · dsimp only
    rw [hworld]
    exact not_cancelled_cancel h hlive

/-- While messages are received, the run stays as it should be, and the end of the rows is reported
only if the context has not been cancelled. -/
theorem receive_heeds (fuel : Nat) {s : State σ} (h : Sound ctx s) (w : World) :
    Sound ctx (receive m ctx fuel s w).state ∧ Honest ctx (receive m ctx fuel s w) := by
  induction fuel generalizing s w with
  | zero => exact ⟨h, honest_error⟩
  | succ fuel ih =>
      have hchecked {w'} : w.check ctx = (.ok (), w') → ¬ w'.Cancelled ctx :=
        World.not_cancelled_of_check
      rw [receive]
      generalize w.check ctx = x at hchecked
      obtain ⟨e | _, w'⟩ := x
      · exact ⟨fail_sound h e w', fail_honest s e w'⟩
      · have hlive := hchecked rfl
        dsimp only
        split
        · rename_i hrun
          exact ⟨sound_of_none hrun, fun _ => hlive⟩
        · rename_i r hrun
          have hr := h r hrun
          have hgoes {r' : Run σ} (hr' : r'.Counted ctx 0) :
              Sound ctx { s with run := some r' } := sound_of_some rfl hr'
          split
          · rename_i hzero
            exact ⟨complete_sound s r w', complete_honest s hr hzero hlive⟩
          · have hawaited := (Run.counted_invariant (m := m) ctx 0).await (w := w') hr
            generalize r.await m w' = x at hawaited
            cases hawaited with
            | @message r₁ w₁ message queue hr₁ hqueue =>
                have htaken := hr₁.take hqueue
                cases message with
                | row i row =>
                    refine ⟨sound_of_some rfl ?_, honest_row⟩
                    exact (Run.counted_invariant ctx 0).interleave htaken
                | finished i => exact ih (hgoes (htaken.note i)) w₁
                | failed i e =>
                    exact ⟨fail_sound (hgoes (htaken.note i)) e w₁, fail_honest _ e w₁⟩
            | disconnected hr₁ => exact ⟨fail_sound (hgoes hr₁) _ _, fail_honest _ _ _⟩
            | timeout hr₁ => exact ih (hgoes hr₁) _
            | stalled hr₁ => exact ⟨hgoes hr₁, honest_error⟩

/-- Every call of `next` of a parallel map looks at the token. -/
theorem heeds (hm : m.Evolving) (p : Partitioning) (ctx : Context) :
    (machine m p).Heeds ctx (Sound ctx) fun _ => False where
  evolving := evolving hm p
  next_sound {s} hs w := by
    dsimp only [machine]
    rw [next]
    split
    · exact hs
    · exact (receive_heeds _ hs w).1
  next_of_silent h := h.elim
  pending_of_silent h := h.elim
  next_of_cancelled {s} _ w hcancelled := by
    have hchecked := World.check_eq_error hcancelled
    dsimp only [machine]
    rw [next]
    split
    · exact ⟨_, rfl⟩
    · rw [patience, receive]
      generalize w.check ctx = x at hchecked
      obtain ⟨result, w'⟩ := x
      obtain rfl : result = .error .cancelled := hchecked
      refine ⟨.cancelled, ?_⟩
      dsimp only
      rw [fail]
      split <;> rfl
  next_interrupted {s} hs w _ hcancelled := by
    dsimp only [machine] at hcancelled ⊢
    rw [next] at hcancelled ⊢
    split
    · exact .of_error
    · rename_i hactive
      rw [hactive] at hcancelled
      have hhonest := (receive_heeds (m := m) (patience s w) hs w).2
      rintro (_ | row) hrow
      · exact absurd hcancelled (hhonest hrow)
      · exact ⟨rfl, id⟩
  openRun_sound s _ hknows hok := openRun_sound p s hknows hok
  openRun_of_cancelled _ _ _ := .inl fun _ _ h => h
  openRun_interrupted _ _ _ _ _ := fun _ _ h => h

end ParallelCursor
end OrderedQuery
