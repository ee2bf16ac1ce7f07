import OrderedQuery.Proofs.Cursor.Conduct
import OrderedQuery.Proofs.Cursor.Parallel.Delivery

/-!
# How a parallel map is drained

`Hears` lists the ways in which a call of `next` can end, `Ends` those in which draining a run
can.  In each of them, the log that the reader has by then is one of workers in company.
-/

namespace OrderedQuery

/-- Nobody has cancelled those who watch the token. -/
theorem World.Steady.live {token : Token} {w : World} (hw : w.Steady token) {ctx : Context}
    (hwatch : ∀ f ∈ ctx.token.flags, f ∈ token.flags) :
    w.signals.isCancelled ctx.token = false := by
  refine List.any_eq_false.mpr ?_
  intro f hf
  simpa using (hw.token f (hwatch f hf)).2

theorem World.Steady.check {token : Token} {w : World} (hw : w.Steady token) {ctx : Context}
    (hwatch : ∀ f ∈ ctx.token.flags, f ∈ token.flags) : w.check ctx = (.ok (), w) := by
  rw [hw.spare_fits.check_eq, hw.live hwatch]
  rfl

namespace Run

variable {σ : Type} {m : Machine σ} {r : Run σ} {w : World}

/-- Nobody takes a step after everybody's end. -/
theorem settle_of_ended (h : ∀ k ∈ r.workers, k.phase = .ended) (fuel : Nat) :
    r.settle m fuel w = (r, w) := by
  have hready : r.ready w = [] := by
    refine List.eq_nil_iff_forall_not_mem.mpr ?_
    intro i hi
    obtain ⟨k, hk, hcan⟩ := mem_ready_iff.mp hi
    rw [Worker.canStep, h k (List.mem_of_getElem? hk)] at hcan
    cases hcan
  cases fuel with
  | zero => rfl
  | succ fuel => rw [settle, hready]

theorem verdict_of_ended (h : ∀ k ∈ r.workers, k.phase = .ended) : r.verdict = .ok () := by
  have hdone : r.allDone = true := by
    refine List.all_eq_true.mpr ?_
    intro k hk
    rw [Worker.isDone, h k hk]
  have hnone : r.workers.findIdx? Worker.isAborted = none := by
    refine List.findIdx?_eq_none_iff.mpr ?_
    intro k hk
    rw [Worker.isAborted, h k hk]
  rw [verdict, if_pos hdone, hnone]

end Run

namespace Job

open Run (Continues)

variable {σ : Type} {j : Job σ} {log : List Message} {r r' : Run σ} {w w' : World}
  {ctx : Context} {s : ParallelCursor.State σ}

/-- When nobody is expected to report any more, everybody has come to an end. -/
theorem At.ended (hat : j.At log r w) (hlive : r.live = 0) :
    ∀ k ∈ r.workers, k.phase = .ended := by
  intro k hk
  obtain ⟨i, hi⟩ := List.getElem?_of_mem hk
  have hless : i < r.workers.length := (List.getElem?_eq_some_iff.mp hi).1
  rw [hat.workers] at hless
  obtain ⟨message, hmem, hreport, rfl⟩ := mem_reporters_iff.mp (hat.mem_reporters hlive hless)
  obtain ⟨e, k', result, -, hk', hended, -⟩ := hat.company.sends_report hmem hreport
  obtain rfl := Option.some.inj (hi.symm.trans hk')
  exact hended

theorem At.complete_eq (hat : j.At log r w) (hlive : r.live = 0) :
    ∃ w', ParallelCursor.complete j.machine s r w =
      ⟨.ok none, { s with base := s.base.finish, run := none }, w'⟩ := by
  have hended := hat.ended hlive
  unfold ParallelCursor.complete Run.shutdown
  rw [Run.settle_of_ended (r := { r with channel := r.channel.abandon }) hended]
  dsimp only
  rw [Run.verdict_of_ended (r := { r with channel := r.channel.abandon }) hended]
  exact ⟨_, rfl⟩

/-- The ways in which a call of `next` ends, with the messages it has taken. -/
inductive Hears (j : Job σ) (log : List Message) :
    List Message → Outcome (ParallelCursor.State σ) (Option Row) → Prop
  | row (ends : List Nat) {i : Nat} {row : Row} {s : ParallelCursor.State σ} {r : Run σ}
      {w : World} (hrun : s.run = some r) (hactive : s.base.state = .active)
      (hat : j.At (log ++ (ends.map .finished ++ [.row i row])) r w) :
      Hears j log (ends.map .finished ++ [.row i row]) ⟨.ok (some row), s, w⟩
  | done (ends : List Nat) {s : ParallelCursor.State σ} {r : Run σ} {w w' : World}
      (hrun : s.run = none) (hat : j.At (log ++ ends.map .finished) r w')
      (hlive : r.live = 0) :
      Hears j log (ends.map .finished) ⟨.ok none, s, w⟩
  | failed (ends : List Nat) {i : Nat} {e : QueryError} {s : ParallelCursor.State σ}
      {r : Run σ} {w w' : World} (hrun : s.run = none)
      (hat : j.At (log ++ (ends.map .finished ++ [.failed i e])) r w') :
      Hears j log (ends.map .finished ++ [.failed i e]) ⟨.error e, s, w⟩
  | lost (ends : List Nat) {s : ParallelCursor.State σ} {r : Run σ} {w w' : World}
      (hrun : s.run = none) (hat : j.At (log ++ ends.map .finished) r w')
      (hlive : r.live ≠ 0) (hdone : r.allDone = true) (hqueue : r.channel.queue = []) :
      Hears j log (ends.map .finished)
        ⟨.error (.worker r.firstSilent .unreported), s, w⟩

/-- A report comes before what is heard afterwards. -/
theorem Hears.after_finished {i : Nat} {heard : List Message}
    {o : Outcome (ParallelCursor.State σ) (Option Row)}
    (h : j.Hears (log ++ [.finished i]) heard o) : j.Hears log (.finished i :: heard) o := by
  have hjoin : ∀ {tail : List Message} {r : Run σ} {w : World},
      j.At (log ++ [.finished i] ++ tail) r w → j.At (log ++ .finished i :: tail) r w := by
    intro tail r w hat
    rwa [List.append_assoc] at hat
  cases h with
  | row ends hrun hactive hat => exact .row (i :: ends) hrun hactive (hjoin hat)
  | done ends hrun hat hlive => exact .done (i :: ends) hrun (hjoin hat) hlive
  | failed ends hrun hat => exact .failed (i :: ends) hrun (hjoin hat)
  | lost ends hrun hat hlive hdone hqueue =>
      exact .lost (i :: ends) hrun (hjoin hat) hlive hdone hqueue

theorem Company.steady (hc : j.Company log r w) : w.Steady j.token := by
  obtain ⟨holdings, hc⟩ := hc
  exact hc.steady

theorem Company.token (hc : j.Company log r w) : r.token = j.token := by
  obtain ⟨holdings, hc⟩ := hc
  exact hc.token

/-- Every iteration of `receive` notes a report or uses up a choice of the schedule. -/
theorem At.receive (hm : j.machine.Local j.Owns) (hwatch : ∀ f ∈ ctx.token.flags, f ∈ j.token.flags)
    {base : CursorBase} (hactive : base.state = .active) (source : BindingSource) {fuel : Nat}
    (hat : j.At log r w) (hfuel : w.schedule.length + r.live < fuel) :
    j.Hears log (ParallelCursor.heardWith j.machine ctx fuel ⟨base, source, some r⟩ w)
      (ParallelCursor.receive j.machine ctx fuel ⟨base, source, some r⟩ w) := by
  induction fuel generalizing r w log with
  | zero => exact absurd hfuel (Nat.not_lt_zero _)
  | succ fuel ih =>
      simp only [ParallelCursor.heardWith, ParallelCursor.receive, hat.company.steady.check hwatch]
      by_cases hlive : r.live = 0
      · simp only [if_pos hlive]
        obtain ⟨w', hcomplete⟩ :=
          hat.complete_eq (s := ⟨base, source, some r⟩) hlive
        rw [hcomplete]
        have hnothing : j.At (log ++ [].map Message.finished) r w := by
          rwa [List.map_nil, List.append_nil]
        exact .done [] rfl hnothing hlive
      · simp only [if_neg hlive]
        have hreceives := hat.company.await hm
        generalize r.await j.machine w = x at hreceives
        cases hreceives with
        | @message message r' w' hc hcontinues =>
            have hlive' : r'.live = r.live := hcontinues.live
            have hschedule : w'.schedule.length ≤ w.schedule.length := hcontinues.schedule
            cases message with
            | row i row =>
                obtain ⟨hc', hcontinues'⟩ := hc.interleave hm
                exact .row [] rfl hactive ((hat.row hc hcontinues).continues hc'
                  hcontinues')
            | finished i =>
                have hnoted := hat.note rfl hc hcontinues
                refine Hears.after_finished (ih hnoted ?_)
                simp only [Run.note]
                omega
            | failed i e => exact .failed [] rfl (hat.note rfl hc hcontinues)
        | disconnected hc hcontinues hdone hqueue =>
            have hnothing := hat.continues hc hcontinues
            rw [← List.append_nil log] at hnothing
            refine .lost [] rfl hnothing ?_ hdone hqueue
            rw [hcontinues.live]
            exact hlive
        | @timeout r' w' hc hcontinues hless =>
            have hlive' : r'.live = r.live := hcontinues.live
            exact ih (hat.continues hc hcontinues) (by omega)

theorem At.next (hm : j.machine.Local j.Owns) (hwatch : ∀ f ∈ ctx.token.flags, f ∈ j.token.flags)
    (hat : j.At log r w) (hrun : s.run = some r) (hactive : s.base.state = .active) :
    j.Hears log (ParallelCursor.heard j.machine ctx s w)
      (ParallelCursor.next j.machine ctx s w) := by
  obtain ⟨base, source, run⟩ := s
  obtain rfl : run = some r := hrun
  have hnext := CursorBase.checkNext_eq_ok (b := base) hactive
  rw [ParallelCursor.heard, ParallelCursor.next]
  simp only [hnext]
  exact hat.receive hm hwatch hactive source (Nat.lt_succ_self _)

/-! ## Draining -/

/-- No failure has been reported. -/
def Unfailed (log : List Message) : Prop :=
  ∀ message ∈ log, message.isFailure = false

theorem Unfailed.append_finished {log : List Message} (h : Unfailed log) (ends : List Nat) :
    Unfailed (log ++ ends.map .finished) := by
  intro message hmem
  rcases List.mem_append.mp hmem with hold | hnew
  · exact h message hold
  · obtain ⟨i, -, rfl⟩ := List.mem_map.mp hnew
    rfl

/-- The ways in which a drained run can end, with what it has left behind. -/
inductive Ends (j : Job σ) (log : List Message) :
    Outcome (ParallelCursor.State σ) Unit → Prop
  | done {s : ParallelCursor.State σ} {r : Run σ} {w w' : World} (hrun : s.run = none)
      (hat : j.At log r w') (hunfailed : Unfailed log) (hlive : r.live = 0) :
      Ends j log ⟨.ok (), s, w⟩
  | failed {front : List Message} {i : Nat} {e : QueryError} {s : ParallelCursor.State σ}
      {r : Run σ} {w w' : World} (hrun : s.run = none) (hat : j.At log r w')
      (hlog : log = front ++ [.failed i e]) (hunfailed : Unfailed front) :
      Ends j log ⟨.error e, s, w⟩
  | lost {s : ParallelCursor.State σ} {r : Run σ} {w w' : World} (hrun : s.run = none)
      (hat : j.At log r w') (hunfailed : Unfailed log) (hlive : r.live ≠ 0)
      (hdone : r.allDone = true) (hqueue : r.channel.queue = []) :
      Ends j log ⟨.error (.worker r.firstSilent .unreported), s, w⟩

/-- Where a reader that has taken `log` is after `n` further calls of `next`, which have taken
`new`: still in the run, after as many rows as calls, or at its end. -/
inductive Drained (j : Job σ) (n : Nat) (log new : List Message) :
    List Row × Outcome (ParallelCursor.State σ) Unit → Prop
  | running {rows : List Row} {s : ParallelCursor.State σ} {r : Run σ} {w : World}
      (hat : j.At (log ++ new) r w) (hunfailed : Unfailed (log ++ new))
      (hrows : rows.length = n)
      (hlast : n = 0 ∧ new = [] ∨ ∃ front i row, new = front ++ [.row i row]) :
      Drained j n log new (rows, ⟨.error .stalled, s, w⟩)
  | ended {rows : List Row} {o : Outcome (ParallelCursor.State σ) Unit}
      (hends : j.Ends (log ++ new) o) (hrows : rows.length < n) :
      Drained j n log new (rows, o)

theorem Drained.cons {n : Nat} {front new : List Message} {i : Nat} {row : Row}
    {rows : List Row} {o : Outcome (ParallelCursor.State σ) Unit}
    (h : j.Drained n (log ++ (front ++ [.row i row])) new (rows, o)) :
    j.Drained (n + 1) log (front ++ [.row i row] ++ new) (row :: rows, o) := by
  cases h with
  | running hat hunfailed hrows hlast =>
      rw [List.append_assoc] at hat hunfailed
      refine .running hat hunfailed (congrArg (· + 1) hrows) (.inr ?_)
      rcases hlast with ⟨-, rfl⟩ | ⟨front', i', row', rfl⟩
      · exact ⟨front, i, row, List.append_nil _⟩
      · exact ⟨front ++ [.row i row] ++ front', i', row', (List.append_assoc ..).symm⟩
  | ended hends hrows =>
      rw [List.append_assoc] at hends
      exact .ended hends (Nat.succ_lt_succ hrows)

/-- The rows that a drained cursor returns are those of the log, and the log is one of workers
in company. -/
theorem At.drainWith (hm : j.machine.Local j.Owns)
    (hwatch : ∀ f ∈ ctx.token.flags, f ∈ j.token.flags) (p : Partitioning) (n : Nat)
    (hat : j.At log r w) (hunfailed : Unfailed log) (hrun : s.run = some r)
    (hactive : s.base.state = .active) :
    rowsIn (ParallelCursor.log j.machine ctx n s w) =
        ((ParallelCursor.machine j.machine p).drainWith ctx n s w).1 ∧
      j.Drained n log (ParallelCursor.log j.machine ctx n s w)
        ((ParallelCursor.machine j.machine p).drainWith ctx n s w) := by
  induction n generalizing s r w log with
  | zero =>
      refine ⟨rfl, ?_⟩
      rw [← List.append_nil log] at hat hunfailed
      exact .running hat hunfailed rfl (.inl ⟨rfl, rfl⟩)
  | succ n ih =>
      have hhears := hat.next hm hwatch hrun hactive
      rw [ParallelCursor.log, Machine.drainWith]
      have hnext : (ParallelCursor.machine j.machine p).next ctx s w =
          ParallelCursor.next j.machine ctx s w := rfl
      rw [hnext]
      dsimp only
      generalize ParallelCursor.heard j.machine ctx s w = heard at hhears
      generalize ParallelCursor.next j.machine ctx s w = o at hhears
      cases hhears with
      | @row ends i row s' r' w' hrun' hactive' hat' =>
          have hunfailed' : Unfailed (log ++ (ends.map .finished ++ [.row i row])) := by
            rw [← List.append_assoc]
            intro message hmem
            rcases List.mem_append.mp hmem with hold | hnew
            · exact hunfailed.append_finished ends message hold
            · rw [List.mem_singleton.mp hnew]
              rfl
          obtain ⟨hrows, hdrained⟩ := ih hat' hunfailed' hrun' hactive'
          dsimp only
          generalize (ParallelCursor.machine j.machine p).drainWith ctx n s' w' = x
            at hrows hdrained
          obtain ⟨rows, o⟩ := x
          refine ⟨?_, hdrained.cons⟩
          rw [rowsIn_append, rowsIn_append, rowsIn_map_finished, hrows]
          rfl
      | @done ends s' r' w' w'' hrun' hat' hlive =>
          dsimp only
          rw [List.append_nil]
          exact ⟨rowsIn_map_finished ends, .ended
            (.done hrun' hat' (hunfailed.append_finished ends) hlive) (Nat.succ_pos n)⟩
      | @failed ends i e s' r' w' w'' hrun' hat' =>
          dsimp only
          rw [List.append_nil]
          refine ⟨?_, .ended (.failed hrun' hat' (List.append_assoc ..).symm
            (hunfailed.append_finished ends)) (Nat.succ_pos n)⟩
          rw [rowsIn_append, rowsIn_map_finished]
          rfl
      | @lost ends s' r' w' w'' hrun' hat' hlive hdone hqueue =>
          dsimp only
          rw [List.append_nil]
          exact ⟨rowsIn_map_finished ends, .ended
            (.lost hrun' hat' (hunfailed.append_finished ends) hlive hdone hqueue)
            (Nat.succ_pos n)⟩

end Job
end OrderedQuery
