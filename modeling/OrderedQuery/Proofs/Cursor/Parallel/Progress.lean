import OrderedQuery.Proofs.Cursor.Parallel.Company
import OrderedQuery.Proofs.Cursor.Parallel.Invariants

/-!
# A waiting reader is served

As long as nothing is on its way, some worker can take a step, and each worker can take but
few before it sends something.  So a reader that waits gets a message, unless all workers
have gone or the schedule lets its time run out.  The steps are counted by `Run.effort`.
-/

namespace OrderedQuery

open scoped CoreInstances

/-- Replacing an element changes a sum by the difference. -/
theorem List.sum_map_set {α : Type} (f : α → Nat) {l : List α} {i : Nat} {a : α}
    (h : l[i]? = some a) (b : α) :
    ((l.set i b).map f).sum + f a = (l.map f).sum + f b := by
  induction l generalizing i with
  | nil => cases h
  | cons c l ih =>
      cases i with
      | zero =>
          obtain rfl := Option.some.inj h
          simp only [List.set_cons_zero, List.map_cons, List.sum_cons]
          omega
      | succ i =>
          have hrest := ih (i := i) h
          simp only [List.set_cons_succ, List.map_cons, List.sum_cons]
          omega

theorem List.sum_map_le_sum_map {α : Type} {f g : α → Nat} {l : List α}
    (h : ∀ a ∈ l, f a ≤ g a) : (l.map f).sum ≤ (l.map g).sum := by
  induction l with
  | nil => exact Nat.le_refl 0
  | cons a l ih =>
      simp only [List.map_cons, List.sum_cons]
      exact Nat.add_le_add (h a List.mem_cons_self)
        (ih fun b hb => h b (List.mem_cons_of_mem a hb))

namespace Worker

variable {σ : Type} {m : Machine σ} {k : Worker σ} {c : Channel} {w : World}

theorem distance_pos_of_canStep (h : k.canStep c w = true) : 0 < k.phase.distance := by
  unfold canStep at h
  revert h
  cases k.phase with
  | ended => exact nofun
  | aborted => exact nofun
  | _ => exact fun _ => Nat.succ_pos _

theorem distance_le_stepsLeft : k.phase.distance ≤ k.stepsLeft m w := by
  unfold stepsLeft
  cases k.phase with
  | begin => exact Nat.le_add_left 6 _
  | opening => exact Nat.le_add_left 5 _
  | pulling => exact Nat.le_add_left 4 _
  | sending row => exact Nat.le_add_left_of_le (Nat.le_add_left 1 2)
  | _ => exact Nat.le_refl _

end Worker

namespace Run

variable {σ : Type} {m : Machine σ} {r r' r'' : Run σ} {w w' w'' : World} {i : Nat}

/-- At least as many steps as the workers can take before one sends something. -/
def distance (r : Run σ) : Nat :=
  (r.workers.map fun k => k.phase.distance).sum

/-- At least as many steps as it takes until something is on its way. -/
def effort (r : Run σ) : Nat :=
  match r.channel.queue with
  | [] => r.distance
  | _ :: _ => 0

theorem effort_of_nil (h : r.channel.queue = []) : r.effort = r.distance := by
  rw [effort, h]

theorem effort_of_ne_nil (h : r.channel.queue ≠ []) : r.effort = 0 := by
  obtain ⟨message, queue, hqueue⟩ := List.exists_cons_of_ne_nil h
  rw [effort, hqueue]

theorem effort_le_stepsLeft : r.effort ≤ r.stepsLeft m w := by
  have hle : r.distance ≤ r.stepsLeft m w :=
    List.sum_map_le_sum_map fun k _ => k.distance_le_stepsLeft
  by_cases h : r.channel.queue = []
  · rw [effort_of_nil h]
    exact hle
  · rw [effort_of_ne_nil h]
    exact Nat.zero_le _

/-- Between two moments the reader has noted no report. -/
structure Continues (r r' : Run σ) (w w' : World) : Prop where
  live : r'.live = r.live
  reported : r'.reported = r.reported
  workers : r'.workers.length = r.workers.length
  schedule : w'.schedule.length ≤ w.schedule.length

theorem Continues.refl (r : Run σ) (w : World) : Continues r r w w :=
  ⟨rfl, rfl, rfl, Nat.le_refl _⟩

theorem Continues.trans (h : Continues r r' w w') (h' : Continues r' r'' w' w'') :
    Continues r r'' w w'' :=
  ⟨h'.live.trans h.live, h'.reported.trans h.reported, h'.workers.trans h.workers,
    Nat.le_trans h'.schedule h.schedule⟩

theorem mem_ready_iff : i ∈ r.ready w ↔ ∃ k, r.workers[i]? = some k ∧
    k.canStep r.channel w = true := by
  simp only [ready, List.mem_map, List.mem_filter]
  constructor
  · rintro ⟨⟨k, i'⟩, ⟨hmem, hcan⟩, rfl⟩
    exact ⟨k, List.mk_mem_zipIdx_iff_getElem?.mp hmem, hcan⟩
  · rintro ⟨k, hk, hcan⟩
    exact ⟨(k, i), ⟨List.mk_mem_zipIdx_iff_getElem?.mpr hk, hcan⟩, rfl⟩

/-- A step of a worker, as long as there is a reader. -/
theorem stepWorker_eq (hreader : r.channel.hasReader = true) {k : Worker σ}
    (hk : r.workers[i]? = some k) :
    r.stepWorker m i w =
      ({ r with
          workers := r.workers.set i (k.advance m i w).1
          channel := { r.channel with queue := r.channel.queue ++ (k.advance m i w).2.1 } },
        (k.advance m i w).2.2) := by
  simp only [stepWorker, hk, Worker.step_eq_advance hreader]

/-- A step leads closer to the next message, unless there is one already. -/
theorem effort_stepWorker (hreader : r.channel.hasReader = true) (hi : i ∈ r.ready w) :
    (r.stepWorker m i w).1.effort ≤ r.effort ∧
      (r.channel.queue = [] → (r.stepWorker m i w).1.effort < r.effort) := by
  obtain ⟨k, hk, hcan⟩ := mem_ready_iff.mp hi
  have hpos := Worker.distance_pos_of_canStep hcan
  have hchange : ∀ k' : Worker σ, ((r.workers.set i k').map fun k => k.phase.distance).sum +
      k.phase.distance = r.distance + k'.phase.distance := fun k' => List.sum_map_set _ hk k'
  have hsent : ∀ {r' : Run σ} {message : Message},
      r'.channel.queue = r.channel.queue ++ [message] →
      r'.effort ≤ r.effort ∧ (r.channel.queue = [] → r'.effort < r.effort) := by
    intro r' message hqueue'
    rw [effort_of_ne_nil (r := r') (by simp [hqueue'])]
    refine ⟨Nat.zero_le _, ?_⟩
    intro hqueue
    have hzero : _ = r.distance + 0 := hchange { k with phase := .ended }
    rw [effort_of_nil hqueue]
    omega
  rw [stepWorker_eq hreader hk]
  have hmoves := Worker.advance_moves m i k w
  generalize k.advance m i w = x at hmoves
  cases hmoves with
  | sends hphase => exact hsent rfl
  | reports hphase => exact hsent rfl
  | rests hdone =>
      unfold Worker.isDone at hdone
      cases hphase : k.phase with
      | ended => rw [hphase] at hpos; cases hpos
      | aborted => rw [hphase] at hpos; cases hpos
      | _ => rw [hphase] at hdone; cases hdone
  | @works k' w' hcontext hphase hdistance hunsent =>
      have hless := hchange k'
      by_cases hqueue : r.channel.queue = []
      · have hqueue' : r.channel.queue ++ [] = [] := by rw [hqueue]; rfl
        rw [effort_of_nil hqueue, effort_of_nil hqueue']
        unfold distance at hless ⊢
        dsimp only
        exact ⟨by omega, fun _ => by omega⟩
      · have hqueue' : r.channel.queue ++ [] ≠ [] := by rwa [List.append_nil]
        rw [effort_of_ne_nil hqueue, effort_of_ne_nil hqueue']
        exact ⟨Nat.le_refl _, fun h => absurd h hqueue⟩

end Run

namespace World

theorem draw_snd_schedule_le (w : World) : w.draw.2.schedule.length ≤ w.schedule.length := by
  unfold draw
  split
  · exact Nat.le_refl _
  · rename_i heq
    rw [heq]
    exact Nat.le_succ _

/-- Only a choice that was there can be other than `0`. -/
theorem draw_snd_schedule_lt {w : World} (h : w.draw.1 ≠ 0) :
    w.draw.2.schedule.length < w.schedule.length := by
  unfold draw at h ⊢
  split
  · rename_i heq
    rw [heq] at h
    exact absurd rfl h
  · rename_i heq
    rw [heq]
    exact Nat.lt_succ_self _

end World

namespace Run

variable {σ : Type} {m : Machine σ} {I : Run σ → World → Prop} {r : Run σ} {w w' : World}

/-- A reader need not wait forever as long as `I` holds: it is there, no step makes the schedule
longer, and if nothing is on its way some worker can take a step. -/
structure Lively (m : Machine σ) (I : Run σ → World → Prop) : Prop extends Stable m I where
  reader : ∀ {r w}, I r w → r.channel.hasReader = true
  schedule : ∀ {r w i}, I r w → i ∈ r.ready w →
    (r.stepWorker m i w).2.schedule.length ≤ w.schedule.length
  ready_ne_nil : ∀ {r w}, I r w → r.channel.queue = [] → r.allDone = false → r.ready w ≠ []

/-- What a reader who waits from `w` on is served with, if `I` holds all the time: a message, the
end of all workers, or the end of its time. -/
inductive Serves (I : Run σ → World → Prop) (w : World) : Receipt × Run σ × World → Prop
  | message {r : Run σ} {w' : World} {message : Message} {queue : List Message} (h : I r w')
      (hqueue : r.channel.queue = message :: queue) :
      Serves I w (.message message, { r with channel := { r.channel with queue } }, w')
  | disconnected {r : Run σ} {w' : World} (h : I r w') (hdone : r.allDone = true)
      (hqueue : r.channel.queue = []) :
      Serves I w (.disconnected, r, w')
  | timeout {r : Run σ} {w' : World} (h : I r w')
      (hless : w'.schedule.length < w.schedule.length) :
      Serves I w (.timeout, r, w')

theorem Serves.after {x : Receipt × Run σ × World} (h : Serves I w' x)
    (hschedule : w'.schedule.length ≤ w.schedule.length) : Serves I w x := by
  cases h with
  | message h hqueue => exact .message h hqueue
  | disconnected h hdone hqueue => exact .disconnected h hdone hqueue
  | timeout h hless => exact .timeout h (Nat.lt_of_lt_of_le hless hschedule)

/-- Waiting ends while there is fuel: a choice of the schedule is used up, or some worker comes
closer to its next message. -/
theorem Lively.awaitWith (hI : Lively m I) {fuel : Nat} (h : I r w)
    (hfuel : w.schedule.length + r.effort < fuel) : Serves I w (r.awaitWith m fuel w) := by
  induction fuel generalizing r w with
  | zero => exact absurd hfuel (Nat.not_lt_zero _)
  | succ fuel ih =>
      have hdrawn := hI.draw h
      have hless := World.draw_snd_schedule_lt (w := w)
      have hschedule := w.draw_snd_schedule_le
      rw [Run.awaitWith]
      generalize w.draw = x at hdrawn hless hschedule
      obtain ⟨choice, w₁⟩ := x
      dsimp only at hdrawn hless hschedule
      -- a step that leaves less to do than there is fuel
      have hstep : ∀ i ∈ r.ready w₁, w₁.schedule.length + (r.stepWorker m i w₁).1.effort < fuel →
          Serves I w
            ((r.stepWorker m i w₁).1.awaitWith m fuel (r.stepWorker m i w₁).2) := by
        intro i hi hlater
        have hschedule₂ := hI.schedule hdrawn hi
        exact (ih (hI.step hdrawn hi) (by omega)).after (Nat.le_trans hschedule₂ hschedule)
      cases choice with
      | zero =>
          dsimp only
          cases hqueue : r.channel.queue with
          | cons message queue => exact .message hdrawn hqueue
          | nil =>
              dsimp only
              cases hdone : r.allDone with
              | true => exact .disconnected hdrawn hdone hqueue
              | false =>
                  cases hready : r.ready w₁ with
                  | nil => exact absurd hready (hI.ready_ne_nil hdrawn hqueue hdone)
                  | cons i others =>
                      have hmem : i ∈ r.ready w₁ := by rw [hready]; exact List.mem_cons_self
                      have heffort := (effort_stepWorker (m := m) (hI.reader h) hmem).2 hqueue
                      exact hstep i hmem (by omega)
      | succ choice =>
          have hless₁ := hless (Nat.succ_ne_zero choice)
          dsimp only
          cases hready : (r.ready w₁)[choice]? with
          | none => exact .timeout hdrawn hless₁
          | some i =>
              have hmem := List.mem_of_getElem? hready
              have heffort := (effort_stepWorker (m := m) (hI.reader h) hmem).1
              exact hstep i hmem (by omega)

/-- A waiting reader is served. -/
theorem Lively.await (hI : Lively m I) (h : I r w) : Serves I w (r.await m w) := by
  have heffort : r.effort ≤ r.stepsLeft m w := effort_le_stepsLeft
  exact hI.awaitWith h (by omega)

end Run

namespace Job

open Run (Continues)

variable {σ : Type} {j : Job σ} {log : List Message} {r r' : Run σ} {w w' : World}

theorem Company.hasReader (hc : j.Company log r w) : r.channel.hasReader = true := by
  obtain ⟨holdings, hc⟩ := hc
  exact hc.reader

theorem Company.stepWorker (hm : j.machine.Local j.Owns) (hc : j.Company log r w) (i : Nat) :
    j.Company log (r.stepWorker j.machine i w).1 (r.stepWorker j.machine i w).2 ∧
      Continues r (r.stepWorker j.machine i w).1 w (r.stepWorker j.machine i w).2 := by
  cases hk : r.workers[i]? with
  | none =>
      simp only [Run.stepWorker, hk]
      exact ⟨hc, Continues.refl r w⟩
  | some k =>
      obtain ⟨holdings, hc⟩ := hc
      obtain ⟨hschedule, hc'⟩ := hc.advance hm hk rfl
      rw [Run.stepWorker_eq hc.reader hk]
      exact ⟨⟨_, hc'⟩, rfl, rfl, List.length_set .., hschedule⟩

theorem continues_draw (r : Run σ) (w : World) : Continues r r w w.draw.2 :=
  ⟨rfl, rfl, rfl, w.draw_snd_schedule_le⟩

/-- A worker that writes need not wait, since nobody else does. -/
theorem CompanyOf.mustWait_eq_false {holdings : Nat → Holdings}
    (hc : j.CompanyOf holdings log r w) {i : Nat} {k : Worker σ}
    (hk : r.workers[i]? = some k) (hbegin : k.phase = .begin)
    (hmode : k.context.config.mode = .readWrite) :
    w.engine.mustWait k.context.session = false := by
  obtain ⟨e, -, ha⟩ := hc.attends i k hk
  have hexclusive : (holdings i).exclusive = true := by
    rcases ha.owned.covers.mode with hreads | hexclusive
    · rw [hmode] at hreads
      cases hreads
    · exact hexclusive
  have hnone : (w.only (holdings i)).engine.active = [] := ha.alone.active_of_begin hbegin
  have hwriter : w.engine.hasWriter = false := by
    refine Engine.hasWriter_eq_false_iff.mpr ?_
    intro a hmem
    cases hown : (holdings i).sessions a.1 with
    | true =>
        have hleft : a ∈ (w.only (holdings i)).engine.active := List.mem_filter.mpr ⟨hmem, hown⟩
        rw [hnone] at hleft
        cases hleft
    | false => exact (ha.exclusive hexclusive).2 a hmem hown
  rw [Engine.mustWait, hwriter, Bool.and_false]

/-- As long as nothing is on its way, a worker that has not come to its end can take a step. -/
theorem Company.ready_ne_nil (hc : j.Company log r w) (hqueue : r.channel.queue = [])
    (hdone : r.allDone = false) : r.ready w ≠ [] := by
  obtain ⟨holdings, hc⟩ := hc
  obtain ⟨k, hmem, hnot⟩ := List.all_eq_false.mp hdone
  obtain ⟨i, hi⟩ := List.getElem?_of_mem hmem
  have haccepts : r.channel.accepts = true := by
    rw [Channel.accepts, hqueue]
    simp [hc.room]
  have hcan : k.canStep r.channel w = true := by
    unfold Worker.canStep
    cases hphase : k.phase with
    | begin =>
        cases hmode : k.context.config.mode with
        | readOnly => simp
        | readWrite => simp [hc.mustWait_eq_false hi hphase hmode]
    | sending row => exact haccepts
    | reporting result => exact haccepts
    | ended => exact absurd (by rw [Worker.isDone, hphase]) hnot
    | aborted => exact absurd (by rw [Worker.isDone, hphase]) hnot
    | _ => rfl
  exact List.ne_nil_of_mem (Run.mem_ready_iff.mpr ⟨k, hi, hcan⟩)

/-- A company keeps a waiting reader served, whatever its workers do. -/
theorem company_lively (hm : j.machine.Local j.Owns) (log : List Message) (r : Run σ) (w : World) :
    Run.Lively j.machine fun r' w' => j.Company log r' w' ∧ Continues r r' w w' where
  step h _ := (h.1.stepWorker hm _).imp_right h.2.trans
  draw h := ⟨h.1.draw, h.2.trans (continues_draw _ _)⟩
  reader h := h.1.hasReader
  schedule h _ := (h.1.stepWorker hm _).2.schedule
  ready_ne_nil h := h.1.ready_ne_nil

theorem Company.interleave (hm : j.machine.Local j.Owns) (hc : j.Company log r w) :
    j.Company log (r.interleave j.machine w).1 (r.interleave j.machine w).2 ∧
      Continues r (r.interleave j.machine w).1 w (r.interleave j.machine w).2 :=
  (company_lively hm log r w).mingle _ ⟨hc, .refl r w⟩

/-- What waiting leads to: a message that is the next in the log, the end of all workers, or
the end of the reader's time. -/
inductive Receives (j : Job σ) (log : List Message) (r : Run σ) (w : World) :
    Receipt × Run σ × World → Prop
  | message {message : Message} {r' : Run σ} {w' : World}
      (hc : j.Company (log ++ [message]) r' w') (hcontinues : Continues r r' w w') :
      Receives j log r w (.message message, r', w')
  | disconnected {r' : Run σ} {w' : World} (hc : j.Company log r' w')
      (hcontinues : Continues r r' w w') (hdone : r'.allDone = true)
      (hqueue : r'.channel.queue = []) :
      Receives j log r w (.disconnected, r', w')
  | timeout {r' : Run σ} {w' : World} (hc : j.Company log r' w')
      (hcontinues : Continues r r' w w')
      (hless : w'.schedule.length < w.schedule.length) :
      Receives j log r w (.timeout, r', w')

theorem Company.await (hm : j.machine.Local j.Owns) (hc : j.Company log r w) :
    j.Receives log r w (r.await j.machine w) := by
  have hserves := (company_lively hm log r w).await ⟨hc, .refl r w⟩
  generalize r.await j.machine w = x at hserves
  cases hserves with
  | message h hqueue =>
      obtain ⟨hc, hcontinues⟩ := h
      exact .message (hc.receive hqueue)
        ⟨hcontinues.live, hcontinues.reported, hcontinues.workers, hcontinues.schedule⟩
  | disconnected h hdone hqueue => exact .disconnected h.1 h.2 hdone hqueue
  | timeout h hless => exact .timeout h.1 h.2 hless

end Job
end OrderedQuery
