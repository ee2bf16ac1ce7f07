import OrderedQuery.Proofs.Cursor.Agreement

/-!
# Runs that agree

Two workers agree if they are at the same place of their programs and their cursors agree; two
runs agree if they have the same channel and their workers agree one by one.  Which worker takes
the next step is a choice of the schedule, and whether it can is a matter of its phase, the
channel and the engine.  So runs that agree stay in lockstep.
-/

namespace OrderedQuery

variable {L : Likeness} {A : Nat → Prop}

/-! ## Workers -/

namespace Worker

variable {σ : Type} {m : Machine σ} {R : σ → σ → Prop} {k k' : Worker σ} {w w' : World}

/-- Workers at the same place of their programs, whose cursors agree. -/
structure Agree (R : σ → σ → Prop) (k k' : Worker σ) : Prop where
  context : k'.context = k.context
  cursor : R k.cursor k'.cursor
  phase : k'.phase = k.phase

/-- What a step of a worker leads to. -/
abbrev StepAgree (L : Likeness) (R : σ → σ → Prop) (x x' : Worker σ × World) : Prop :=
  World.Agree L (Agree R) x x'

theorem Agree.canStep (h : k.Agree R k') (ch : Channel) (hw : w.Alike L w') :
    k'.canStep ch w' = k.canStep ch w := by
  rw [Worker.canStep, Worker.canStep, h.phase, h.context, hw.engine]

theorem Agree.isDone (h : k.Agree R k') : k'.isDone = k.isDone := by
  rw [Worker.isDone, Worker.isDone, h.phase]

theorem Agree.isAborted (h : k.Agree R k') : k'.isAborted = k.isAborted := by
  rw [Worker.isAborted, Worker.isAborted, h.phase]

theorem Agree.pending (hm : m.Agrees L A R) (h : k.Agree R k') (hw : w.Alike L w') :
    k'.pending m w' = k.pending m w := by
  rw [Worker.pending, Worker.pending, h.phase, h.context, hm.pending _ h.cursor hw]

theorem Agree.stepsLeft (hm : m.Agrees L A R) (h : k.Agree R k') (hw : w.Alike L w') :
    k'.stepsLeft m w' = k.stepsLeft m w := by
  rw [Worker.stepsLeft, Worker.stepsLeft, h.phase, h.pending hm hw]

theorem Agree.stop (hm : m.Agrees L A R) (h : k.Agree R k') {cursor cursor' : σ}
    (hcursor : R cursor cursor') (e : QueryError) (hw : w.Alike L w') :
    StepAgree L R (k.stop m cursor e w) (k'.stop m cursor' e w') := by
  rw [Worker.stop, Worker.stop, h.context]
  split
  · obtain hlost | hgone := hm.letGo hcursor hw
    · exact .inl ((World.evolves_rollback _ k.context).lost hlost)
    · exact .inr ⟨⟨rfl, hcursor, rfl⟩, hgone.rollback k.context⟩
  · exact .inr ⟨⟨rfl, hcursor, rfl⟩, hw⟩

theorem Agree.openCursor (hm : m.Agrees L A R) (h : k.Agree R k') (hw : w.Alike L w') :
    StepAgree L R (k.openCursor m w) (k'.openCursor m w') := by
  obtain hlost | hopened := hm.openTop k.context h.cursor hw
  · exact .inl ((k.openCursor_rest hm.evolving w).lost hlost)
  · rw [Worker.openCursor, Worker.openCursor, h.context]
    generalize m.openTop k.context k.cursor w = o, m.openTop k.context k'.cursor w' = o'
      at hopened
    obtain ⟨_ | _ | _, hs, hw⟩ := hopened
    · exact h.stop hm hs _ hw
    · exact .inr ⟨⟨rfl, hs, rfl⟩, hw⟩
    · exact .inr ⟨⟨rfl, hs, rfl⟩, hw⟩

theorem Agree.pull (hm : m.Agrees L A R) (h : k.Agree R k') (hw : w.Alike L w') :
    StepAgree L R (k.pull m w) (k'.pull m w') := by
  obtain hlost | hnext := hm.next k.context h.cursor hw
  · exact .inl ((k.pull_rest hm.evolving w).lost hlost)
  · rw [Worker.pull, Worker.pull, h.context]
    generalize m.next k.context k.cursor w = o, m.next k.context k'.cursor w' = o' at hnext
    obtain ⟨_ | _ | row, hs, hw⟩ := hnext
    · exact h.stop hm hs _ hw
    · exact .inr ⟨⟨rfl, hs, rfl⟩, hw⟩
    · rename_i s s' w₁ w₁'
      have hchecked := hw.check k.context
      dsimp only
      generalize w₁.check k.context = x, w₁'.check k.context = x' at hchecked
      obtain ⟨result, w₂⟩ := x
      obtain ⟨result', w₂'⟩ := x'
      obtain hlost | ⟨rfl, hw⟩ := hchecked
      · left
        cases result <;> exact hlost
      · cases result with
        | error e => exact .inr ⟨⟨rfl, hs, rfl⟩, hw⟩
        | ok _ => exact .inr ⟨⟨rfl, hs, rfl⟩, hw⟩

theorem Agree.close (hm : m.Agrees L A R) (h : k.Agree R k') (pumped : Except QueryError Unit)
    (hw : w.Alike L w') : StepAgree L R (k.close m pumped w) (k'.close m pumped w') := by
  rw [Worker.close, Worker.close, h.context]
  obtain hlost | hclosed := hm.closeTop k.context h.cursor hw
  · exact .inl ((hm.evolving.destroy k.context _ _).lost hlost)
  · generalize m.closeTop k.context k.cursor w = o, m.closeTop k.context k'.cursor w' = o'
      at hclosed
    obtain ⟨result, hs, hw⟩ := hclosed
    rename_i s s' w₁ w₁'
    refine (hm.destroy k.context hs hw).imp id fun hdestroyed => ?_
    dsimp only
    generalize m.destroy k.context s w₁ = o, m.destroy k.context s' w₁' = o' at hdestroyed
    obtain ⟨result', hs, hw⟩ := hdestroyed
    exact ⟨⟨rfl, hs, rfl⟩, hw⟩

theorem Agree.endTransaction (h : k.Agree R k') (result : Except QueryError Unit)
    (hw : w.Alike L w') :
    StepAgree L R (k.endTransaction result w) (k'.endTransaction result w') := by
  cases result with
  | ok _ =>
      obtain ⟨hcommitted, hw⟩ := hw.commitWork k.context
      simp only [Worker.endTransaction, h.context, hcommitted]
      exact .inr ⟨⟨rfl, h.cursor, rfl⟩, hw.recordFinished⟩
  | error e =>
      simp only [Worker.endTransaction, h.context]
      exact .inr ⟨⟨rfl, h.cursor, rfl⟩, (hw.rollback k.context).recordFinished⟩

theorem Agree.beginTransaction (h : k.Agree R k') (hw : w.Alike L w') :
    StepAgree L R (k.beginTransaction w) (k'.beginTransaction w') := by
  obtain ⟨hbegun, hw⟩ := hw.beginWork k.context
  rw [Worker.beginTransaction, Worker.beginTransaction, h.context]
  generalize w.beginWork k.context = x, w'.beginWork k.context = x' at hbegun hw
  obtain ⟨_ | _, w₁⟩ := x
  · obtain ⟨result', w₁'⟩ := x'
    obtain rfl : result' = _ := hbegun
    exact .inr ⟨⟨rfl, h.cursor, rfl⟩, hw.recordFinished⟩
  · obtain ⟨result', w₁'⟩ := x'
    obtain rfl : result' = _ := hbegun
    exact .inr ⟨⟨rfl, h.cursor, rfl⟩, hw⟩

/-- A step of workers that agree: the same is sent, and they agree afterwards. -/
theorem Agree.step (hm : m.Agrees L A R) (h : k.Agree R k') (i : Nat) (ch : Channel)
    (hw : w.Alike L w') :
    (k.step m i ch w).2.2.Lost L ∨
      ((k.step m i ch w).1.Agree R (k'.step m i ch w').1 ∧
        (k'.step m i ch w').2.1 = (k.step m i ch w).2.1 ∧
        (k.step m i ch w).2.2.Alike L (k'.step m i ch w').2.2) := by
  rw [Worker.step, Worker.step, h.phase]
  cases hphase : k.phase with
  | begin => exact (h.beginTransaction hw).imp id fun hx => ⟨hx.1, rfl, hx.2⟩
  | opening => exact (h.openCursor hm hw).imp id fun hx => ⟨hx.1, rfl, hx.2⟩
  | pulling => exact (h.pull hm hw).imp id fun hx => ⟨hx.1, rfl, hx.2⟩
  | sending row =>
      dsimp only
      split
      · exact .inr ⟨⟨h.context, h.cursor, rfl⟩, rfl, hw⟩
      · exact .inr ⟨⟨h.context, h.cursor, rfl⟩, rfl, hw⟩
  | closing pumped => exact (h.close hm pumped hw).imp id fun hx => ⟨hx.1, rfl, hx.2⟩
  | ending result => exact (h.endTransaction result hw).imp id fun hx => ⟨hx.1, rfl, hx.2⟩
  | reporting result => exact .inr ⟨⟨h.context, h.cursor, rfl⟩, rfl, hw⟩
  | ended => exact .inr ⟨h, rfl, hw⟩
  | aborted => exact .inr ⟨h, rfl, hw⟩

end Worker

/-! ## Runs -/

namespace Run

variable {σ : Type} {m : Machine σ} {R : σ → σ → Prop} {r r' : Run σ} {w w' : World}

/-- Runs with the same channel, whose workers agree. -/
structure Agree (R : σ → σ → Prop) (r r' : Run σ) : Prop where
  token : r'.token = r.token
  channel : r'.channel = r.channel
  workers : List.Forall₂ (Worker.Agree R) r.workers r'.workers
  reported : r'.reported = r.reported
  live : r'.live = r.live

theorem Agree.refl (hR : ∀ s, R s s) (r : Run σ) : r.Agree R r :=
  ⟨rfl, rfl, List.forall₂_same.mpr fun _ _ => ⟨rfl, hR _, rfl⟩, rfl, rfl⟩

/-- What steps of a run lead to. -/
abbrev StepsAgree (L : Likeness) (R : σ → σ → Prop) (x x' : Run σ × World) : Prop :=
  World.Agree L (Agree R) x x'

/-- Related lists stay related when related elements are put at the same place. -/
theorem forall₂_set {α β : Type} {V : α → β → Prop} {l : List α} {l' : List β}
    (h : List.Forall₂ V l l') {a : α} {b : β} (hab : V a b) (i : Nat) :
    List.Forall₂ V (l.set i a) (l'.set i b) := by
  induction h generalizing i with
  | nil => exact .nil
  | cons hhead htail ih =>
      cases i with
      | zero => exact .cons hab htail
      | succ i => exact .cons hhead (ih i)

/-- What is computed from each worker of runs that agree, is the same. -/
theorem Agree.map_eq {α : Type} (h : r.Agree R r') {f f' : Worker σ → α}
    (hf : ∀ k k', k.Agree R k' → f' k' = f k) : r'.workers.map f' = r.workers.map f := by
  have hworkers := h.workers
  generalize r.workers = ks, r'.workers = ks' at hworkers
  induction hworkers with
  | nil => rfl
  | cons hk _ ih => rw [List.map_cons, List.map_cons, hf _ _ hk, ih]

theorem Agree.ready (h : r.Agree R r') (hw : w.Alike L w') : r'.ready w' = r.ready w := by
  have hzip : ∀ {ks ks' : List (Worker σ)}, List.Forall₂ (Worker.Agree R) ks ks' → ∀ n,
      ((ks'.zipIdx n).filter fun k => k.1.canStep r.channel w').map Prod.snd =
        ((ks.zipIdx n).filter fun k => k.1.canStep r.channel w).map Prod.snd := by
    intro ks ks' hks
    induction hks with
    | nil => exact fun _ => rfl
    | cons hk _ ih =>
        intro n
        simp only [List.zipIdx_cons, List.filter_cons, hk.canStep r.channel hw]
        split
        · rw [List.map_cons, List.map_cons, ih]
        · exact ih (n + 1)
  rw [Run.ready, Run.ready, h.channel]
  exact hzip h.workers 0

theorem Agree.allDone (h : r.Agree R r') : r'.allDone = r.allDone := by
  have hdone (ks : List (Worker σ)) : ks.all Worker.isDone = (ks.map Worker.isDone).all id := by
    rw [List.all_map]
    rfl
  rw [Run.allDone, Run.allDone, hdone, hdone, h.map_eq fun _ _ hk => hk.isDone]

theorem Agree.verdict (h : r.Agree R r') : r'.verdict = r.verdict := by
  have hfind : r'.workers.findIdx? Worker.isAborted = r.workers.findIdx? Worker.isAborted := by
    have hworkers := h.workers
    generalize r.workers = ks, r'.workers = ks' at hworkers
    induction hworkers with
    | nil => rfl
    | cons hk _ ih => rw [List.findIdx?_cons, List.findIdx?_cons, hk.isAborted, ih]
  rw [Run.verdict, Run.verdict, h.allDone, hfind]

theorem Agree.firstSilent (h : r.Agree R r') : r'.firstSilent = r.firstSilent := by
  rw [Run.firstSilent, Run.firstSilent, h.reported, h.workers.length_eq]

theorem Agree.note (h : r.Agree R r') (i : Nat) : (r.note i).Agree R (r'.note i) :=
  ⟨h.token, h.channel, h.workers, congrArg (i :: ·) h.reported, congrArg (· - 1) h.live⟩

theorem Agree.withQueue (h : r.Agree R r') (queue : List Message) :
    Agree R { r with channel := { r.channel with queue } }
      { r' with channel := { r'.channel with queue } } :=
  ⟨h.token, by rw [h.channel], h.workers, h.reported, h.live⟩

theorem Agree.stepsLeft (hm : m.Agrees L A R) (h : r.Agree R r') (hw : w.Alike L w') :
    r'.stepsLeft m w' = r.stepsLeft m w := by
  rw [Run.stepsLeft, Run.stepsLeft, h.map_eq fun _ _ hk => hk.stepsLeft hm hw]

theorem Agree.pending (hm : m.Agrees L A R) (h : r.Agree R r') (hw : w.Alike L w') :
    r'.pending m w' = r.pending m w := by
  rw [Run.pending, Run.pending, h.channel, h.map_eq fun _ _ hk => hk.pending hm hw]

theorem Agree.stepWorker (hm : m.Agrees L A R) (h : r.Agree R r') (i : Nat)
    (hw : w.Alike L w') : StepsAgree L R (r.stepWorker m i w) (r'.stepWorker m i w') := by
  rw [Run.stepWorker, Run.stepWorker]
  by_cases hi : i < r.workers.length
  · have hi' : i < r'.workers.length := h.workers.length_eq ▸ hi
    have hk := h.workers.get hi hi'
    rw [List.getElem?_eq_getElem hi, List.getElem?_eq_getElem hi']
    dsimp only
    rw [h.channel]
    obtain hlost | ⟨hk, hchannel, hw⟩ := hk.step hm i r.channel hw
    · exact .inl hlost
    · exact .inr ⟨⟨h.token, hchannel, forall₂_set h.workers hk i, h.reported, h.live⟩, hw⟩
  · rw [List.getElem?_eq_none (Nat.le_of_not_lt hi),
      List.getElem?_eq_none (h.workers.length_eq ▸ Nat.le_of_not_lt hi)]
    exact .inr ⟨h, hw⟩

theorem Agree.mingle (hm : m.Agrees L A R) (fuel : Nat) (h : r.Agree R r') (hw : w.Alike L w') :
    StepsAgree L R (r.mingle m fuel w) (r'.mingle m fuel w') := by
  induction fuel generalizing r r' w w' with
  | zero => exact .inr ⟨h, hw⟩
  | succ fuel ih =>
      obtain ⟨hchoice, hw⟩ := hw.draw
      rw [Run.mingle, Run.mingle]
      generalize w.draw = x, w'.draw = x' at hchoice hw
      obtain ⟨choice, w₁⟩ := x
      obtain ⟨choice', w₁'⟩ := x'
      obtain rfl : choice' = choice := hchoice
      dsimp only at hw
      cases choice' with
      | zero => exact .inr ⟨h, hw⟩
      | succ choice =>
          dsimp only
          rw [h.ready hw]
          split
          · exact .inr ⟨h, hw⟩
          · rename_i i _
            obtain hlost | ⟨h, hw⟩ := h.stepWorker hm i hw
            · exact .inl ((mingle_evolves hm.evolving fuel _ _).lost hlost)
            · exact ih h hw

theorem Agree.interleave (hm : m.Agrees L A R) (h : r.Agree R r') (hw : w.Alike L w') :
    StepsAgree L R (r.interleave m w) (r'.interleave m w') := by
  rw [Run.interleave, Run.interleave, hw.schedule]
  exact h.mingle hm _ hw

/-- What a reader of runs that agree gets by waiting. -/
def ReceiptsAgree (L : Likeness) (R : σ → σ → Prop) (x x' : Receipt × Run σ × World) : Prop :=
  x.2.2.Lost L ∨ x'.1 = x.1 ∧ x.2.1.Agree R x'.2.1 ∧ x.2.2.Alike L x'.2.2

theorem Agree.awaitWith (hm : m.Agrees L A R) (fuel : Nat) (h : r.Agree R r')
    (hw : w.Alike L w') :
    ReceiptsAgree L R (r.awaitWith m fuel w) (r'.awaitWith m fuel w') := by
  induction fuel generalizing r r' w w' with
  | zero => exact .inr ⟨rfl, h, hw⟩
  | succ fuel ih =>
      have hgoes (i : Nat) {w w' : World} (hw : w.Alike L w') :
          ReceiptsAgree L R
            ((r.stepWorker m i w).1.awaitWith m fuel (r.stepWorker m i w).2)
            ((r'.stepWorker m i w').1.awaitWith m fuel (r'.stepWorker m i w').2) := by
        obtain hlost | ⟨h, hw⟩ := h.stepWorker hm i hw
        · exact .inl ((awaitWith_evolves hm.evolving fuel _ _).lost hlost)
        · exact ih h hw
      obtain ⟨hchoice, hw⟩ := hw.draw
      rw [Run.awaitWith, Run.awaitWith]
      generalize w.draw = x, w'.draw = x' at hchoice hw
      obtain ⟨choice, w₁⟩ := x
      obtain ⟨choice', w₁'⟩ := x'
      obtain rfl : choice' = choice := hchoice
      dsimp only at hw
      cases choice' with
      | zero =>
          dsimp only
          rw [h.channel, h.allDone, h.ready hw]
          cases hqueue : r.channel.queue with
          | cons message queue =>
              have hrest := h.withQueue queue
              rw [h.channel] at hrest
              exact .inr ⟨rfl, hrest, hw⟩
          | nil =>
              dsimp only
              split
              · exact .inr ⟨rfl, h, hw⟩
              · split
                · exact .inr ⟨rfl, h, hw⟩
                · exact hgoes _ hw
      | succ choice =>
          dsimp only
          rw [h.ready hw]
          split
          · exact .inr ⟨rfl, h, hw⟩
          · exact hgoes _ hw

theorem Agree.await (hm : m.Agrees L A R) (h : r.Agree R r') (hw : w.Alike L w') :
    ReceiptsAgree L R (r.await m w) (r'.await m w') := by
  rw [Run.await, Run.await, hw.schedule, h.stepsLeft hm hw]
  exact h.awaitWith hm _ hw

theorem Agree.settle (hm : m.Agrees L A R) (fuel : Nat) (h : r.Agree R r') (hw : w.Alike L w') :
    StepsAgree L R (r.settle m fuel w) (r'.settle m fuel w') := by
  induction fuel generalizing r r' w w' with
  | zero => exact .inr ⟨h, hw⟩
  | succ fuel ih =>
      rw [Run.settle, Run.settle, h.ready hw]
      split
      · exact .inr ⟨h, hw⟩
      · rename_i i others _
        obtain ⟨hchoice, hw⟩ := hw.draw
        dsimp only
        rw [hchoice]
        obtain hlost | ⟨h, hw⟩ := h.stepWorker hm _ hw
        · exact .inl ((settle_evolves hm.evolving fuel _ _).lost hlost)
        · exact ih h hw

theorem Agree.shutdown (hm : m.Agrees L A R) (h : r.Agree R r') (hw : w.Alike L w') :
    StepsAgree L R (r.shutdown m w) (r'.shutdown m w') := by
  have hcancelled := hw.cancel r.token
  have habandoned : Agree R { r with channel := r.channel.abandon }
      { r' with channel := r'.channel.abandon } :=
    ⟨h.token, by rw [h.channel], h.workers, h.reported, h.live⟩
  have hsteps := habandoned.stepsLeft hm hcancelled
  rw [Run.shutdown, Run.shutdown]
  rw [h.token] at habandoned hsteps ⊢
  rw [hsteps]
  exact habandoned.settle hm _ hcancelled

end Run

/-! ## Parallel maps -/

namespace ParallelCursor

variable {σ : Type} {m : Machine σ} {R : σ → σ → Prop} {w w' : World}

/-- Parallel maps whose runs, if they are open, agree. -/
abbrev AgreeOn (A : Nat → Prop) (R : σ → σ → Prop) : State σ → State σ → Prop :=
  Leaf.AgreeOn A (Option.Rel (Run.Agree R))

theorem AgreeOn.refl (hR : ∀ s, R s s) (A : Nat → Prop) (s : State σ) :
    ParallelCursor.AgreeOn A R s s := by
  refine Leaf.AgreeOn.refl (fun run => ?_) s
  cases run with
  | none => exact .none
  | some r => exact .some (.refl hR r)

/-- The same error, or runs that agree. -/
inductive Started (R : σ → σ → Prop) :
    Except QueryError (Run σ) → Except QueryError (Run σ) → Prop
  | error (e : QueryError) : Started R (.error e) (.error e)
  | ok {r r' : Run σ} (h : r.Agree R r') : Started R (.ok r) (.ok r')

/-- The positions that the input of a parallel map reads from its caller or from the map. -/
abbrev Below (A : Nat → Prop) (position other : Nat) : Prop :=
  other = position ∨ A other

section

variable {position : Nat}

theorem giveUp_agree (hm : m.Agrees L A R) {r r' : Run σ} (h : r.Agree R r') (e : QueryError)
    (hw : w.Alike L w') : World.Agree L Eq (giveUp m r e w) (giveUp m r' e w') := by
  rw [giveUp, giveUp]
  obtain hlost | ⟨h, hw⟩ := h.interleave hm hw
  · have hshut := World.Evolves.lost
      (Run.shutdown_evolves hm.evolving (r.interleave m w).1 (r.interleave m w).2) hlost
    left
    dsimp only
    split <;> exact hshut
  · have hshut := h.shutdown hm hw
    dsimp only
    generalize Run.shutdown m _ _ = x, Run.shutdown m _ _ = x' at hshut
    obtain ⟨r₁, w₁⟩ := x
    obtain ⟨r₁', w₁'⟩ := x'
    obtain hlost | ⟨h, hw⟩ := hshut
    · left
      dsimp only
      split <;> exact hlost
    · dsimp only at h ⊢
      rw [h.verdict]
      split
      · exact .inr ⟨rfl, hw⟩
      · exact .inr ⟨rfl, hw⟩

/-- Starting workers in environments that agree gives runs that agree, or the same error. -/
theorem startWorkers_agree (hm : m.Agrees L (Below A position) R) (ctx : Context) {env env' : Env}
    (henv : env.AgreeOn A env') (bindings : List Binding) {r r' : Run σ} (h : r.Agree R r')
    (hw : w.Alike L w') :
    World.Agree L (Started R) (startWorkers m ctx env position bindings r w)
      (startWorkers m ctx env' position bindings r' w') := by
  induction bindings generalizing r r' w w' with
  | nil => exact .inr ⟨.ok h, hw⟩
  | cons b rest ih =>
      have hhired := hw.hire ctx r.token r.workers.length
      have hsame : w'.hire ctx r'.token r'.workers.length =
          w'.hire ctx r.token r.workers.length := by
        rw [h.token, h.workers.length_eq]
      rw [startWorkers, startWorkers, hsame]
      generalize w.hire ctx r.token r.workers.length = x,
        w'.hire ctx r.token r.workers.length = x' at hhired
      obtain ⟨result, w₁⟩ := x
      obtain ⟨result', w₁'⟩ := x'
      cases result with
      | error e =>
          obtain hlost | ⟨rfl, hw⟩ := hhired
          · exact .inl (World.Evolves.lost (giveUp_evolves hm.evolving r e w₁) hlost)
          · have hgiven := giveUp_agree hm h e hw
            dsimp only
            generalize giveUp m r e w₁ = x, giveUp m r' e w₁' = x' at hgiven
            obtain ⟨e, w⟩ := x
            obtain ⟨e', w'⟩ := x'
            obtain hlost | ⟨rfl, hw⟩ := hgiven
            · exact .inl hlost
            · exact .inr ⟨.error e, hw⟩
      | ok context =>
          have hworker : Worker.Agree R (.start m context (env.fork.set position b))
              (.start m context (env'.fork.set position b)) :=
            ⟨rfl, hm.fresh (.single (henv.set_fork position b) false false), rfl⟩
          dsimp only
          obtain hlost | ⟨rfl, hw⟩ := hhired
          · exact .inl (World.Evolves.lost ((w₁.evolves_recordStarted.trans
              (Run.interleave_evolves hm.evolving _ _)).trans
                (startWorkers_evolves hm.evolving ctx env position rest _ _)) hlost)
          · dsimp only at hw
            have hadded : Run.Agree R
                { r with workers := r.workers ++ [.start m context (env.fork.set position b)] }
                { r' with
                  workers := r'.workers ++ [.start m context (env'.fork.set position b)] } :=
              ⟨h.token, h.channel, List.rel_append h.workers (.cons hworker .nil), h.reported,
                h.live⟩
            dsimp only
            obtain hlost | ⟨h, hw⟩ := hadded.interleave hm hw.recordStarted
            · exact .inl ((startWorkers_evolves hm.evolving ctx env position rest _ _).lost hlost)
            · exact ih h hw

end

variable {p : Partitioning}

theorem startRun_agree (hm : m.Agrees L (Below A p.position) R) (ctx : Context)
    {b b' : CursorBase} (h : b.AgreeOn A b') (hw : w.Alike L w') :
    World.Agree L (Started R) (startRun m p ctx b w) (startRun m p ctx b' w') := by
  have hmode : checkMode p ctx w' = checkMode p ctx w := by
    rw [checkMode, checkMode, hw.engine]
  rw [startRun, startRun, hmode]
  split
  · exact .inr ⟨.error _, hw⟩
  · have henv := h.env
    rw [CursorBase.currentEnv, CursorBase.currentEnv, h.violation]
    generalize b.env = env, b'.env = env' at henv
    cases henv with
    | none => exact .inr ⟨.error _, hw⟩
    | some henv =>
        obtain ⟨htoken, hw⟩ := hw.newChild ctx.token
        dsimp only
        rw [htoken]
        exact startWorkers_agree hm ctx henv _ ⟨rfl, rfl, .nil, rfl, rfl⟩ hw

theorem openRun_agrees (hm : m.Agrees L (Below A p.position) R) :
    (openRun m p).Agrees L (AgreeOn A R) := by
  intro ctx s s' h w w' hw
  by_cases hidle : s.base.state = .idle
  · have hactive := h.base.withState .active
    rw [openRun, openRun, CursorBase.beginOpen_eq_ok hidle,
      CursorBase.beginOpen_eq_ok (h.base.state.trans hidle)]
    have hstarted := startRun_agree hm ctx hactive hw
    dsimp only
    generalize startRun m p ctx { s.base with state := .active } w = x,
      startRun m p ctx { s'.base with state := .active } w' = x' at hstarted
    obtain ⟨result, w₁⟩ := x
    obtain ⟨result', w₁'⟩ := x'
    obtain hlost | ⟨hstarted, hw⟩ := hstarted
    · left
      cases result <;> exact hlost
    · cases hstarted with
      | error e => exact .intro _ ⟨hactive.finish, h.source, h.run⟩ hw
      | ok hr => exact .intro _ ⟨hactive, h.source, .some hr⟩ hw
  · rw [openRun, openRun, CursorBase.beginOpen_eq_error hidle,
      CursorBase.beginOpen_eq_error fun hs => hidle (h.base.state.symm.trans hs),
      h.base.violation]
    exact .intro _ h hw

section

variable {B : Nat → Prop}

theorem fail_agree (hm : m.Agrees L B R) {s s' : State σ} (h : AgreeOn A R s s') (e : QueryError)
    (hw : w.Alike L w') : (fail m s e w).Agree L (AgreeOn A R) (fail m s' e w') := by
  obtain ⟨b, source, run⟩ := s
  obtain ⟨b', source', run'⟩ := s'
  obtain ⟨hbase, hsource, hrun⟩ := h
  cases hrun with
  | none => exact .intro _ ⟨hbase, hsource, .none⟩ hw
  | some hr => exact (hr.shutdown hm hw).imp id fun hx => .intro _ ⟨hbase, hsource, .none⟩ hx.2

theorem complete_agree (hm : m.Agrees L B R) {s s' : State σ} (h : AgreeOn A R s s')
    {r r' : Run σ} (hr : r.Agree R r') (hw : w.Alike L w') :
    (complete m s r w).Agree L (AgreeOn A R) (complete m s' r' w') := by
  have hshut := hr.shutdown hm hw
  rw [complete, complete]
  generalize r.shutdown m w = x, r'.shutdown m w' = x' at hshut
  obtain ⟨r₁, w₁⟩ := x
  obtain ⟨r₁', w₁'⟩ := x'
  obtain hlost | ⟨hr, hw⟩ := hshut
  · left
    dsimp only
    split <;> exact hlost
  · dsimp only at hr hw ⊢
    rw [hr.verdict]
    split
    · exact .intro _ ⟨h.base, h.source, .none⟩ hw
    · exact .intro _ ⟨h.base.finish, h.source, .none⟩ hw

theorem receive_agree (hm : m.Agrees L B R) (ctx : Context) (fuel : Nat) {s s' : State σ}
    (h : AgreeOn A R s s') (hw : w.Alike L w') :
    (receive m ctx fuel s w).Agree L (AgreeOn A R) (receive m ctx fuel s' w') := by
  induction fuel generalizing s s' w w' with
  | zero => exact .intro _ h hw
  | succ fuel ih =>
      have hrest := receive_evolves hm.evolving ctx fuel
      have hlater := receive_rest hm.evolving ctx fuel hrest s w
      have hafter {r : Run σ} {w₁ : World} :
          w.check ctx = (.ok (), w₁) → s.run = some r → r.live ≠ 0 →
            (r.await m w₁).2.2.Evolves (receive m ctx (fuel + 1) s w).world :=
        receive_rest_of_await hm.evolving ctx fuel hrest
      obtain hlost | ⟨hresult, hw⟩ := hw.check ctx
      · exact .inl (hlater.lost hlost)
      · rw [receive, receive]
        rw [receive] at hafter
        generalize w.check ctx = x, w'.check ctx = x' at hresult hw hafter
        obtain ⟨_ | _, w₁⟩ := x
        · obtain ⟨result', w₁'⟩ := x'
          obtain rfl : _ = result' := hresult
          exact fail_agree hm h _ hw
        · obtain ⟨result', w₁'⟩ := x'
          obtain rfl : _ = result' := hresult
          have hopen := h.run
          dsimp only at hw hafter ⊢
          generalize s.run = run, s'.run = run' at hopen hafter
          cases hopen with
          | none => exact .intro _ ⟨h.base.finish, h.source, .none⟩ hw
          | @some r r' hr =>
              dsimp only
              rw [hr.live]
              split
              · exact complete_agree hm h hr hw
              · rename_i hlive
                obtain hlost | ⟨hreceipt, hr, hw⟩ := hr.await hm hw
                · have hlater := hafter rfl rfl hlive
                  dsimp only at hlater
                  rw [if_neg hlive] at hlater
                  exact .inl (World.Evolves.lost hlater hlost)
                · generalize r.await m w₁ = x, r'.await m w₁' = x' at hreceipt hr hw
                  obtain ⟨receipt, r₁, w₂⟩ := x
                  obtain ⟨receipt', r₁', w₂'⟩ := x'
                  obtain rfl : receipt' = receipt := hreceipt
                  dsimp only at hr hw
                  have hgoes {r r' : Run σ} (hr : r.Agree R r') :
                      AgreeOn A R { s with run := some r } { s' with run := some r' } :=
                    ⟨h.base, h.source, .some hr⟩
                  cases receipt' with
                  | message message =>
                      cases message with
                      | row i row =>
                          exact (hr.interleave hm hw).imp id fun hx =>
                            .intro _ ⟨h.base.hand (some row), h.source, .some hx.1⟩ hx.2
                      | finished i => exact ih (hgoes (hr.note i)) hw
                      | failed i e => exact fail_agree hm (hgoes (hr.note i)) e hw
                  | disconnected =>
                      dsimp only
                      rw [hr.firstSilent]
                      exact fail_agree hm (hgoes hr) _ hw
                  | timeout => exact ih (hgoes hr) hw
                  | stalled => exact .intro _ (hgoes hr) hw

theorem next_agrees (hm : m.Agrees L B R) : (next m).Agrees L (AgreeOn A R) := by
  intro ctx s s' h w w' hw
  have hpatience : patience s' w' = patience s w := by
    have hrun := h.run
    rw [patience, patience, hw.schedule]
    generalize s.run = run, s'.run = run' at hrun
    cases hrun with
    | none => rfl
    | some hr => rw [Option.map_some, Option.map_some, hr.live]
  rw [next, next, h.base.checkNext, hpatience]
  split
  · exact .intro _ h hw
  · exact receive_agree hm ctx _ h hw

theorem closeRun_agrees (hm : m.Agrees L B R) : (closeRun m).Agrees L (AgreeOn A R) := by
  intro ctx s s' h w w' hw
  obtain ⟨b, source, run⟩ := s
  obtain ⟨b', source', run'⟩ := s'
  obtain ⟨hbase, hsource, hrun⟩ := h
  dsimp only at hbase hsource hrun
  by_cases hlive : b.state = .destroyed
  · rw [closeRun, closeRun, CursorBase.beginClose_eq_error hlive,
      CursorBase.beginClose_eq_error (hbase.state.trans hlive), hbase.violation]
    exact .intro _ ⟨hbase, hsource, hrun⟩ hw
  · have hidle := hbase.withState .idle
    rw [closeRun, closeRun, CursorBase.beginClose_eq_ok hlive,
      CursorBase.beginClose_eq_ok fun hs => hlive (hbase.state.symm.trans hs)]
    cases hrun with
    | none => exact .intro _ ⟨hidle, hsource, .none⟩ hw
    | @some r r' hr =>
        have hshut := hr.shutdown hm hw
        dsimp only
        generalize r.shutdown m w = x, r'.shutdown m w' = x' at hshut
        obtain ⟨r₁, w₁⟩ := x
        obtain ⟨r₁', w₁'⟩ := x'
        obtain hlost | ⟨hr, hw⟩ := hshut
        · exact .inl hlost
        · dsimp only at hr hw ⊢
          rw [hr.verdict]
          exact .intro _ ⟨hidle, hsource, .none⟩ hw

end

/-- Parallel maps agree if their inputs do on the position of the map as well. -/
theorem agrees (hm : m.Agrees L (Below A p.position) R) :
    (machine m p).Agrees L A (AgreeOn A R) where
  evolving := evolving hm.evolving p
  fresh hsource := ⟨.start _, hsource, .none⟩
  pending := by
    intro ctx s s' h w w' hw
    have hrun := h.run
    have hfresh : R (m.fresh (.ofEnv .root)) (m.fresh (.ofEnv .root)) :=
      hm.fresh (.single (.refl _ .root) false false)
    dsimp only [machine, pending]
    rw [h.base.state, hw.engine, hm.pending _ hfresh hw]
    generalize s.run = run, s'.run = run' at hrun
    cases hrun with
    | none => rfl
    | some hr => rw [Option.map_some, Option.map_some, hr.pending hm hw]
  openRun := openRun_agrees hm
  next := next_agrees hm
  closeRun := closeRun_agrees hm
  destroy := Leaf.destroy_agrees (closeRun_agrees hm)
  openBindings := Leaf.openBindings_agrees
  nextBindings := Leaf.nextBindings_supplied
  closeBindings := Leaf.closeBindings_agrees
  letGo := by
    intro s s' h w w' hw
    have hrun := h.run
    dsimp only [machine]
    rw [letGo, letGo]
    generalize s.run = run, s'.run = run' at hrun
    cases hrun with
    | none => exact .inr hw
    | some hr => exact (hr.shutdown hm hw).imp id And.right

end ParallelCursor
end OrderedQuery
