import OrderedQuery.Plan.Cursor
import OrderedQuery.Proofs.Cursor.Locality

/-!
# Parallel maps keep to themselves

The workers of a parallel map work in sessions of their own and under a token of their own,
all of them handed out when the map is opened.  So whatever order their steps come in, the
map concerns nobody but the party it belongs to, and in particular, a worker whose plan holds
a parallel map concerns no other worker.
-/

namespace OrderedQuery

variable {σ : Type} {m : Machine σ} {Owns : Ownership σ} {h h' : Holdings} {ctx : Context}
  {w : World}

namespace Machine

theorem Local.openTop (hm : m.Local Owns) : Acts Owns m.openTop := by
  intro h ctx w hh s hs
  obtain ⟨honly, hkeeps, howns⟩ := hm.openBindings hh hs
  simp only [Machine.openTop, honly]
  generalize m.openBindings ctx s w = o at hkeeps howns
  obtain ⟨result, s₁, w₁⟩ := o
  have hkeeps₁ : h.Keeps w w₁ := hkeeps
  cases result with
  | error e => exact ⟨rfl, hkeeps₁, howns⟩
  | ok u =>
      have hh₁ := hh.keeps hkeeps₁
      obtain ⟨honly, hkeeps, howns⟩ := hm.nextBindings hh₁ howns
      simp only [Carries.only] at honly ⊢
      simp only [honly]
      generalize m.nextBindings ctx s₁ w₁ = o at hkeeps howns
      obtain ⟨result, s₂, w₂⟩ := o
      have hkeeps₂ : h.Keeps w₁ w₂ := hkeeps
      rcases result with e | _ | env
      · exact ⟨rfl, hkeeps₁.trans hkeeps₂, howns⟩
      · exact ⟨rfl, hkeeps₁.trans hkeeps₂, howns⟩
      · obtain ⟨honly, hkeeps, howns⟩ := hm.openRun (hh₁.keeps hkeeps₂) howns
        simp only [Carries.only] at honly ⊢
        simp only [honly]
        exact ⟨rfl, (hkeeps₁.trans hkeeps₂).trans hkeeps, howns⟩

theorem Local.closeTop (hm : m.Local Owns) : Acts Owns m.closeTop := by
  intro h ctx w hh s hs
  obtain ⟨honly, hkeeps, howns⟩ := hm.closeRun hh hs
  simp only [Machine.closeTop, honly]
  generalize m.closeRun ctx s w = o at hkeeps howns
  obtain ⟨result, s₁, w₁⟩ := o
  have hkeeps₁ : h.Keeps w w₁ := hkeeps
  obtain ⟨honly, hkeeps, howns⟩ := hm.closeBindings (hh.keeps hkeeps₁) howns
  simp only [Carries.only] at honly ⊢
  simp only [honly]
  exact ⟨rfl, hkeeps₁.trans hkeeps, howns⟩

end Machine

/-! ## Workers -/

namespace Worker

/-- A worker uses only what is held. -/
structure Owned (Owns : Ownership σ) (h : Holdings) (k : Worker σ) : Prop where
  covers : h.Covers k.context
  cursor : Owns h k.cursor

/-- What a worker becomes is still owned. -/
abbrev StaysOwned (Owns : Ownership σ) (h : Holdings) (x : Worker σ × World) : Prop :=
  x.1.Owned Owns (h.upto x.2)

variable {k : Worker σ}

theorem Owned.mono (hm : m.Local Owns) (hk : k.Owned Owns h) (hle : h ≤ h') :
    k.Owned Owns h' :=
  ⟨hk.covers.mono hle, hm.mono hk.cursor hle⟩

theorem Owned.hosts (hk : k.Owned Owns (h.upto w)) (hf : h.Fits w) : h.Hosts k.context w :=
  ⟨hf, hk.covers⟩

theorem stop_within (hm : m.Local Owns) (hf : h.Fits w) (hk : k.Owned Owns (h.upto w))
    {cursor : σ} (hcursor : Owns (h.upto w) cursor) (e : QueryError) :
    Within h w (StaysOwned Owns h) (k.stop m cursor e w) (k.stop m cursor e (w.only h)) := by
  unfold stop
  by_cases he : e = .aborted
  · rw [if_pos he, if_pos he]
    obtain ⟨honly, hkeeps, -⟩ := hm.letGo hf hcursor
    have hkeeps₁ : h.Keeps w (m.letGo cursor w) := hkeeps
    obtain ⟨honly₂, hkeeps₂, -⟩ := ((hk.hosts hf).keeps hkeeps₁).rollback
    have hle := (hkeeps₁.trans hkeeps₂).upto_le
    refine ⟨?_, hkeeps₁.trans hkeeps₂, hk.covers.mono hle, hm.mono hcursor hle⟩
    rw [honly]
    exact congrArg (Prod.mk _) honly₂
  · rw [if_neg he, if_neg he]
    exact ⟨rfl, hf.keeps_refl, hk.covers, hcursor⟩

theorem openCursor_within (hm : m.Local Owns) (hf : h.Fits w) (hk : k.Owned Owns (h.upto w)) :
    Within h w (StaysOwned Owns h) (k.openCursor m w) (k.openCursor m (w.only h)) := by
  obtain ⟨honly, hkeeps, howns⟩ := hm.openTop (hk.hosts hf) hk.cursor
  simp only [openCursor, honly]
  generalize m.openTop k.context k.cursor w = o at hkeeps howns
  obtain ⟨result, cursor, w₁⟩ := o
  have hkeeps₁ : h.Keeps w w₁ := hkeeps
  have hk₁ := hk.mono hm hkeeps₁.upto_le
  rcases result with e | _ | _
  · exact (stop_within hm hkeeps₁.fits hk₁ howns e).after hkeeps₁
  · exact ⟨rfl, hkeeps₁, hk₁.covers, howns⟩
  · exact ⟨rfl, hkeeps₁, hk₁.covers, howns⟩

theorem pull_within (hm : m.Local Owns) (hf : h.Fits w) (hk : k.Owned Owns (h.upto w)) :
    Within h w (StaysOwned Owns h) (k.pull m w) (k.pull m (w.only h)) := by
  obtain ⟨honly, hkeeps, howns⟩ := hm.next (hk.hosts hf) hk.cursor
  simp only [pull, honly]
  generalize m.next k.context k.cursor w = o at hkeeps howns
  obtain ⟨result, cursor, w₁⟩ := o
  have hkeeps₁ : h.Keeps w w₁ := hkeeps
  have hk₁ := hk.mono hm hkeeps₁.upto_le
  rcases result with e | _ | row
  · exact (stop_within hm hkeeps₁.fits hk₁ howns e).after hkeeps₁
  · exact ⟨rfl, hkeeps₁, hk₁.covers, howns⟩
  · obtain ⟨honly, hkeeps, -⟩ := (hk₁.hosts hkeeps₁.fits).check
    simp only [Carries.only] at honly ⊢
    simp only [honly]
    generalize w₁.check k.context = x at hkeeps
    obtain ⟨result, w₂⟩ := x
    have hkeeps₂ : h.Keeps w₁ w₂ := hkeeps
    have hk₂ := hk₁.mono hm hkeeps₂.upto_le
    have howns₂ : Owns (h.upto w₂) cursor := hm.mono howns hkeeps₂.upto_le
    cases result with
    | error e => exact ⟨rfl, hkeeps₁.trans hkeeps₂, hk₂.covers, howns₂⟩
    | ok u => exact ⟨rfl, hkeeps₁.trans hkeeps₂, hk₂.covers, howns₂⟩

theorem close_within (hm : m.Local Owns) (hf : h.Fits w) (hk : k.Owned Owns (h.upto w))
    (pumped : Except QueryError Unit) :
    Within h w (StaysOwned Owns h) (k.close m pumped w) (k.close m pumped (w.only h)) := by
  obtain ⟨honly, hkeeps, howns⟩ := hm.closeTop (hk.hosts hf) hk.cursor
  simp only [close, honly]
  generalize m.closeTop k.context k.cursor w = o at hkeeps howns
  obtain ⟨result, cursor, w₁⟩ := o
  have hkeeps₁ : h.Keeps w w₁ := hkeeps
  have hk₁ := hk.mono hm hkeeps₁.upto_le
  obtain ⟨honly₂, hkeeps₂, howns₂⟩ := hm.destroy (hk₁.hosts hkeeps₁.fits) howns
  simp only [Carries.only] at honly₂ ⊢
  simp only [honly₂]
  exact ⟨rfl, hkeeps₁.trans hkeeps₂, (hk₁.mono hm hkeeps₂.upto_le).covers, howns₂⟩

theorem beginTransaction_within (hm : m.Local Owns) (hf : h.Fits w)
    (hk : k.Owned Owns (h.upto w)) :
    Within h w (StaysOwned Owns h) (k.beginTransaction w) (k.beginTransaction (w.only h)) := by
  obtain ⟨honly, hkeeps, -⟩ := (hk.hosts hf).beginWork
  simp only [beginTransaction, honly]
  generalize w.beginWork k.context = x at hkeeps
  obtain ⟨result, w₁⟩ := x
  have hkeeps₁ : h.Keeps w w₁ := hkeeps
  have hk₁ := hk.mono hm hkeeps₁.upto_le
  cases result with
  | error e =>
      have hcount : h.Keeps w₁ w₁.recordFinished :=
        hkeeps₁.fits.keeps_of_eq rfl rfl (Nat.le_refl _)
      exact ⟨rfl, hkeeps₁.trans hcount, hk₁.covers, hk₁.cursor⟩
  | ok u => exact ⟨rfl, hkeeps₁, hk₁.covers, hk₁.cursor⟩

theorem endTransaction_within (hm : m.Local Owns) (hf : h.Fits w)
    (hk : k.Owned Owns (h.upto w)) (result : Except QueryError Unit) :
    Within h w (StaysOwned Owns h) (k.endTransaction result w)
      (k.endTransaction result (w.only h)) := by
  cases result with
  | error e =>
      obtain ⟨honly, hkeeps, -⟩ := (hk.hosts hf).rollback
      simp only [endTransaction, honly]
      generalize w.rollback k.context = w₁ at hkeeps
      have hkeeps₁ : h.Keeps w w₁ := hkeeps
      have hk₁ := hk.mono hm hkeeps₁.upto_le
      have hcount : h.Keeps w₁ w₁.recordFinished :=
        hkeeps₁.fits.keeps_of_eq rfl rfl (Nat.le_refl _)
      exact ⟨rfl, hkeeps₁.trans hcount, hk₁.covers, hk₁.cursor⟩
  | ok u =>
      obtain ⟨honly, hkeeps, -⟩ := (hk.hosts hf).commitWork
      simp only [endTransaction, honly]
      generalize w.commitWork k.context = x at hkeeps
      obtain ⟨committed, w₁⟩ := x
      have hkeeps₁ : h.Keeps w w₁ := hkeeps
      have hk₁ := hk.mono hm hkeeps₁.upto_le
      have hcount : h.Keeps w₁ w₁.recordFinished :=
        hkeeps₁.fits.keeps_of_eq rfl rfl (Nat.le_refl _)
      exact ⟨rfl, hkeeps₁.trans hcount, hk₁.covers, hk₁.cursor⟩

/-- A step of a worker concerns nobody but its party. -/
theorem step_within (hm : m.Local Owns) (hf : h.Fits w) (hk : k.Owned Owns (h.upto w))
    (number : Nat) (c : Channel) :
    Within h w (fun x => x.1.Owned Owns (h.upto x.2.2)) (k.step m number c w)
      (k.step m number c (w.only h)) := by
  have hdone : Within h w (fun x => x.1.Owned Owns (h.upto x.2.2)) (k, c, w)
      (k, c, w.only h) := ⟨rfl, hf.keeps_refl, hk⟩
  have hlift : ∀ {f : World → Worker σ × World},
      Within h w (StaysOwned Owns h) (f w) (f (w.only h)) →
      Within h w (fun x => x.1.Owned Owns (h.upto x.2.2)) ((f w).1, c, (f w).2)
        ((f (w.only h)).1, c, (f (w.only h)).2) := by
    rintro f ⟨honly, hkeeps, howned⟩
    exact ⟨by rw [honly]; rfl, hkeeps, howned⟩
  unfold step
  cases k.phase with
  | begin => exact hlift (beginTransaction_within hm hf hk)
  | opening => exact hlift (openCursor_within hm hf hk)
  | pulling => exact hlift (pull_within hm hf hk)
  | sending row =>
      dsimp only
      cases c.hasReader with
      | true => exact ⟨rfl, hf.keeps_refl, hk.covers, hk.cursor⟩
      | false => exact ⟨rfl, hf.keeps_refl, hk.covers, hk.cursor⟩
  | closing pumped => exact hlift (close_within hm hf hk pumped)
  | ending result => exact hlift (endTransaction_within hm hf hk result)
  | reporting result => exact ⟨rfl, hf.keeps_refl, hk.covers, hk.cursor⟩
  | ended => exact hdone
  | aborted => exact hdone

/-- Nobody else makes a worker wait. -/
theorem canStep_only (hf : h.Fits w) (hk : k.Owned Owns (h.upto w)) (c : Channel) :
    k.canStep c (w.only h) = k.canStep c w := by
  have hcovers := hk.covers.mono (h.upto_le w)
  unfold canStep
  cases k.phase with
  | begin =>
      dsimp only
      rcases hcovers.mode with hreads | hexclusive
      · rw [hreads]
        rfl
      · rw [Engine.mustWait, Engine.mustWait, Holdings.inTransaction_only hcovers.session,
          hf.hasWriter_only hexclusive]
  | _ => rfl

theorem pending_only (hm : m.Local Owns) (hf : h.Fits w) (hk : k.Owned Owns h) :
    k.pending m (w.only h) = k.pending m w := by
  unfold pending
  rw [hm.pending hf hk.covers hk.cursor]

theorem stepsLeft_only (hm : m.Local Owns) (hf : h.Fits w) (hk : k.Owned Owns h) :
    k.stepsLeft m (w.only h) = k.stepsLeft m w := by
  unfold stepsLeft
  rw [pending_only hm hf hk]

end Worker

/-! ## Runs -/

namespace Run

/-- A run uses only what is held, and its own flag is not shared with anybody. -/
structure Owned (Owns : Ownership σ) (h : Holdings) (r : Run σ) : Prop where
  flag : ∀ f ∈ r.token.flags.head?, h.flags f = true
  token : h.Watches r.token
  workers : ∀ k ∈ r.workers, k.Owned Owns h

/-- What a run becomes is still owned. -/
abbrev StaysOwned (Owns : Ownership σ) (h : Holdings) (x : Run σ × World) : Prop :=
  x.1.Owned Owns (h.upto x.2)

variable {r : Run σ}

theorem Owned.mono (hm : m.Local Owns) (hr : r.Owned Owns h) (hle : h ≤ h') :
    r.Owned Owns h' :=
  ⟨fun f hf => hle.2.1 f (hr.flag f hf), hr.token.mono hle,
    fun k hk => (hr.workers k hk).mono hm hle⟩

/-- Nobody else decides whose turn it can be. -/
theorem ready_only (hf : h.Fits w) (hr : r.Owned Owns (h.upto w)) :
    r.ready (w.only h) = r.ready w := by
  unfold ready
  congr 1
  refine List.filter_congr ?_
  rintro ⟨k, i⟩ hmem
  exact Worker.canStep_only hf (hr.workers k (List.fst_mem_of_mem_zipIdx hmem)) r.channel

theorem stepsLeft_only (hm : m.Local Owns) (hf : h.Fits w) (hr : r.Owned Owns h) :
    r.stepsLeft m (w.only h) = r.stepsLeft m w := by
  unfold stepsLeft
  congr 1
  refine List.map_congr_left ?_
  intro k hk
  exact Worker.stepsLeft_only hm hf (hr.workers k hk)

theorem stepWorker_within (hm : m.Local Owns) (hf : h.Fits w) (hr : r.Owned Owns (h.upto w))
    (i : Nat) :
    Within h w (StaysOwned Owns h) (r.stepWorker m i w) (r.stepWorker m i (w.only h)) := by
  unfold stepWorker
  cases hk : r.workers[i]? with
  | none => exact ⟨rfl, hf.keeps_refl, hr⟩
  | some k =>
      obtain ⟨honly, hkeeps, howned⟩ :=
        Worker.step_within hm hf (hr.workers k (List.mem_of_getElem? hk)) i r.channel
      simp only [honly]
      generalize k.step m i r.channel w = x at hkeeps howned
      obtain ⟨k', channel, w'⟩ := x
      have hr' := hr.mono hm hkeeps.upto_le
      refine ⟨rfl, hkeeps, hr'.flag, hr'.token, ?_⟩
      intro k₁ hk₁
      rcases List.mem_or_eq_of_mem_set hk₁ with hold | rfl
      · exact hr'.workers k₁ hold
      · exact howned

theorem mingle_within (hm : m.Local Owns) (fuel : Nat) (hf : h.Fits w)
    (hr : r.Owned Owns (h.upto w)) :
    Within h w (StaysOwned Owns h) (r.mingle m fuel w) (r.mingle m fuel (w.only h)) := by
  induction fuel generalizing r w with
  | zero => exact ⟨rfl, hf.keeps_refl, hr⟩
  | succ fuel ih =>
      obtain ⟨honly, hkeeps, -⟩ := hf.draw
      simp only [mingle, honly]
      generalize w.draw = x at hkeeps
      obtain ⟨choice, w₁⟩ := x
      have hkeeps₁ : h.Keeps w w₁ := hkeeps
      have hr₁ := hr.mono hm hkeeps₁.upto_le
      cases choice with
      | zero => exact ⟨rfl, hkeeps₁, hr₁⟩
      | succ choice =>
          simp only [Carries.only, ready_only hkeeps₁.fits hr₁]
          cases (r.ready w₁)[choice]? with
          | none => exact ⟨rfl, hkeeps₁, hr₁⟩
          | some i =>
              obtain ⟨honly, hkeeps, howned⟩ := stepWorker_within hm hkeeps₁.fits hr₁ i
              simp only [honly]
              generalize r.stepWorker m i w₁ = x at hkeeps howned
              obtain ⟨r₂, w₂⟩ := x
              exact (ih hkeeps.fits howned).after (hkeeps₁.trans hkeeps)

theorem interleave_within (hm : m.Local Owns) (hf : h.Fits w) (hr : r.Owned Owns (h.upto w)) :
    Within h w (StaysOwned Owns h) (r.interleave m w) (r.interleave m (w.only h)) :=
  mingle_within hm _ hf hr

theorem awaitWith_within (hm : m.Local Owns) (fuel : Nat) (hf : h.Fits w)
    (hr : r.Owned Owns (h.upto w)) :
    Within h w (fun x => x.2.1.Owned Owns (h.upto x.2.2)) (r.awaitWith m fuel w)
      (r.awaitWith m fuel (w.only h)) := by
  induction fuel generalizing r w with
  | zero => exact ⟨rfl, hf.keeps_refl, hr⟩
  | succ fuel ih =>
      obtain ⟨honly, hkeeps, -⟩ := hf.draw
      simp only [awaitWith, honly]
      generalize w.draw = x at hkeeps
      obtain ⟨choice, w₁⟩ := x
      have hkeeps₁ : h.Keeps w w₁ := hkeeps
      have hr₁ := hr.mono hm hkeeps₁.upto_le
      have hstep : ∀ i, Within h w (fun x => x.2.1.Owned Owns (h.upto x.2.2))
          ((r.stepWorker m i w₁).1.awaitWith m fuel (r.stepWorker m i w₁).2)
          ((r.stepWorker m i (w₁.only h)).1.awaitWith m fuel
            (r.stepWorker m i (w₁.only h)).2) := by
        intro i
        obtain ⟨honly, hkeeps, howned⟩ := stepWorker_within hm hkeeps₁.fits hr₁ i
        simp only [honly]
        generalize r.stepWorker m i w₁ = x at hkeeps howned
        obtain ⟨r₂, w₂⟩ := x
        exact (ih hkeeps.fits howned).after (hkeeps₁.trans hkeeps)
      cases choice with
      | zero =>
          simp only [Carries.only, ready_only hkeeps₁.fits hr₁]
          cases r.channel.queue with
          | cons message queue => exact ⟨rfl, hkeeps₁, hr₁.flag, hr₁.token, hr₁.workers⟩
          | nil =>
              cases r.allDone with
              | true => exact ⟨rfl, hkeeps₁, hr₁⟩
              | false =>
                  cases r.ready w₁ with
                  | nil => exact ⟨rfl, hkeeps₁, hr₁⟩
                  | cons i others => exact hstep i
      | succ choice =>
          simp only [Carries.only, ready_only hkeeps₁.fits hr₁]
          cases (r.ready w₁)[choice]? with
          | none => exact ⟨rfl, hkeeps₁, hr₁⟩
          | some i => exact hstep i

theorem await_within (hm : m.Local Owns) (hf : h.Fits w) (hr : r.Owned Owns (h.upto w)) :
    Within h w (fun x => x.2.1.Owned Owns (h.upto x.2.2)) (r.await m w)
      (r.await m (w.only h)) := by
  unfold await
  rw [stepsLeft_only hm hf (hr.mono hm (h.upto_le w))]
  exact awaitWith_within hm _ hf hr

theorem settle_within (hm : m.Local Owns) (fuel : Nat) (hf : h.Fits w)
    (hr : r.Owned Owns (h.upto w)) :
    Within h w (StaysOwned Owns h) (r.settle m fuel w) (r.settle m fuel (w.only h)) := by
  induction fuel generalizing r w with
  | zero => exact ⟨rfl, hf.keeps_refl, hr⟩
  | succ fuel ih =>
      simp only [settle, ready_only hf hr]
      cases r.ready w with
      | nil => exact ⟨rfl, hf.keeps_refl, hr⟩
      | cons i others =>
          obtain ⟨honly, hkeeps, -⟩ := hf.draw
          simp only [honly]
          generalize w.draw = x at hkeeps
          obtain ⟨choice, w₁⟩ := x
          have hkeeps₁ : h.Keeps w w₁ := hkeeps
          have hr₁ := hr.mono hm hkeeps₁.upto_le
          simp only [Carries.only]
          generalize ((i :: others)[choice % (others.length + 1)]?).getD i = chosen
          obtain ⟨honly, hkeeps, howned⟩ := stepWorker_within hm hkeeps₁.fits hr₁ chosen
          simp only [honly]
          generalize r.stepWorker m chosen w₁ = x at hkeeps howned
          obtain ⟨r₂, w₂⟩ := x
          exact (ih hkeeps.fits howned).after (hkeeps₁.trans hkeeps)

theorem shutdown_within (hm : m.Local Owns) (hf : h.Fits w) (hr : r.Owned Owns (h.upto w)) :
    Within h w (StaysOwned Owns h) (r.shutdown m w) (r.shutdown m (w.only h)) := by
  obtain ⟨honly, hkeeps, -⟩ := hf.cancel hr.flag
  simp only [shutdown, honly]
  generalize ({ w with signals := w.signals.cancel r.token } : World) = w₁ at hkeeps
  have hkeeps₁ : h.Keeps w w₁ := hkeeps
  have hr₁ := hr.mono hm hkeeps₁.upto_le
  have habandoned : ({ r with channel := r.channel.abandon } : Run σ).Owned Owns (h.upto w₁) :=
    ⟨hr₁.flag, hr₁.token, hr₁.workers⟩
  simp only [Carries.only]
  rw [stepsLeft_only hm hkeeps₁.fits (habandoned.mono hm (h.upto_le w₁))]
  exact (settle_within hm _ hkeeps₁.fits habandoned).after hkeeps₁

theorem pending_only (hm : m.Local Owns) (hf : h.Fits w) (hr : r.Owned Owns h) :
    r.pending m (w.only h) = r.pending m w := by
  unfold pending
  congr 2
  refine List.map_congr_left ?_
  intro k hk
  exact Worker.pending_only hm hf (hr.workers k hk)

end Run

/-! ## Cursors -/

namespace ParallelCursor

/-- What an open run holds. -/
def HoldsRun (Owns : Ownership σ) : Ownership (Option (Run σ)) := fun h run =>
  ∀ r ∈ run, r.Owned Owns h

theorem holdsRun_some {r : Run σ} (hr : r.Owned Owns h) : HoldsRun Owns h (some r) := by
  intro r' hr'
  obtain rfl := Option.some.inj hr'
  exact hr

theorem holdsRun_none : HoldsRun Owns h none := fun _ hr => nomatch hr

theorem giveUp_within (hm : m.Local Owns) {r : Run σ} (hf : h.Fits w)
    (hr : r.Owned Owns (h.upto w)) (e : QueryError) :
    Within h w (fun _ => True) (giveUp m r e w) (giveUp m r e (w.only h)) := by
  obtain ⟨honly, hkeeps, howned⟩ := Run.interleave_within hm hf hr
  simp only [giveUp, honly, Carries.only]
  generalize r.interleave m w = x at hkeeps howned
  obtain ⟨r₁, w₁⟩ := x
  have hkeeps₁ : h.Keeps w w₁ := hkeeps
  obtain ⟨honly, hkeeps, -⟩ := Run.shutdown_within hm hkeeps₁.fits howned
  simp only [Carries.only] at honly ⊢
  simp only [honly]
  generalize r₁.shutdown m w₁ = x at hkeeps
  obtain ⟨r₂, w₂⟩ := x
  have hkeeps₂ : h.Keeps w₁ w₂ := hkeeps
  cases r₂.verdict with
  | error first => exact ⟨rfl, hkeeps₁.trans hkeeps₂, trivial⟩
  | ok u => exact ⟨rfl, hkeeps₁.trans hkeeps₂, trivial⟩

theorem startWorkers_within (hm : m.Local Owns) (env : Env) (position : Nat)
    (bindings : List Binding) {r : Run σ} (hh : h.Hosts ctx w)
    (hr : r.Owned Owns (h.upto w)) :
    Within h w (fun x => ∀ r', x.1 = .ok r' → r'.Owned Owns (h.upto x.2))
      (startWorkers m ctx env position bindings r w)
      (startWorkers m ctx env position bindings r (w.only h)) := by
  induction bindings generalizing r w with
  | nil =>
      refine ⟨rfl, hh.fits.keeps_refl, ?_⟩
      intro r' hr'
      obtain rfl := Except.ok.inj hr'
      exact hr
  | cons b rest ih =>
      obtain ⟨honly, hkeeps, hcovers⟩ := hh.hire hr.token r.workers.length
      simp only [startWorkers, honly]
      generalize w.hire ctx r.token r.workers.length = x at hkeeps hcovers
      obtain ⟨result, w₁⟩ := x
      have hkeeps₁ : h.Keeps w w₁ := hkeeps
      have hr₁ := hr.mono hm hkeeps₁.upto_le
      cases result with
      | error e =>
          obtain ⟨honly, hkeeps, -⟩ := giveUp_within hm hkeeps₁.fits hr₁ e
          simp only [Carries.only] at honly ⊢
          simp only [honly]
          exact ⟨rfl, hkeeps₁.trans hkeeps, fun _ hr' => nomatch hr'⟩
      | ok context =>
          have hcount : h.Keeps w₁ w₁.recordStarted :=
            hkeeps₁.fits.keeps_of_eq rfl rfl (Nat.le_refl _)
          have hworker : (Worker.start m context (env.fork.set position b)).Owned Owns
              (h.upto w₁) := ⟨hcovers context rfl, hm.fresh _ _⟩
          have hstarted : ({ r with workers := r.workers ++
              [Worker.start m context (env.fork.set position b)] } : Run σ).Owned Owns
              (h.upto w₁.recordStarted) := by
            refine ⟨hr₁.flag, hr₁.token, ?_⟩
            intro k hk
            rcases List.mem_append.mp hk with hold | hnew
            · exact hr₁.workers k hold
            · rw [List.mem_singleton.mp hnew]
              exact hworker
          obtain ⟨honly, hkeeps, howned⟩ := Run.interleave_within hm hcount.fits hstarted
          have honly' : (w₁.only h).recordStarted = w₁.recordStarted.only h := rfl
          simp only [Carries.only, honly'] at honly ⊢
          simp only [honly]
          generalize Run.interleave m _ w₁.recordStarted = x at hkeeps howned
          obtain ⟨r₂, w₂⟩ := x
          have hkeeps₂ : h.Keeps w w₂ := (hkeeps₁.trans hcount).trans hkeeps
          exact (ih (hh.keeps hkeeps₂) howned).after hkeeps₂

theorem checkMode_only (p : Partitioning) (hh : h.Hosts ctx w) :
    checkMode p ctx (w.only h) = checkMode p ctx w := by
  unfold checkMode
  rw [Holdings.inTransaction_only hh.session]

theorem startRun_within (hm : m.Local Owns) (p : Partitioning) (base : CursorBase)
    (hh : h.Hosts ctx w) :
    Within h w (fun x => ∀ r', x.1 = .ok r' → r'.Owned Owns (h.upto x.2))
      (startRun m p ctx base w) (startRun m p ctx base (w.only h)) := by
  unfold startRun
  rw [checkMode_only p hh]
  cases checkMode p ctx w with
  | error e =>
      refine ⟨rfl, hh.fits.keeps_refl, fun _ hr => ?_⟩
      cases hr
  | ok u =>
      dsimp only
      cases base.currentEnv with
      | error e =>
          refine ⟨rfl, hh.fits.keeps_refl, fun _ hr => ?_⟩
          cases hr
      | ok env =>
          have hkeeps := hh.fits.newChild ctx.token
          have hh' := hh.keeps hkeeps
          -- the flag of the new token is the one that comes next
          have hflag : (h.upto { w with signals := (w.signals.newChild ctx.token).2 }).flags
              w.signals.issued = true := by
            simp [Holdings.upto, Signals.newChild, hh.fits.flags _ (Nat.le_refl _)]
          have hr : (Run.start (w.signals.newChild ctx.token).1 ctx.config.channelCapacity
              p.partitions.length : Run σ).Owned Owns
              (h.upto { w with signals := (w.signals.newChild ctx.token).2 }) := by
            refine ⟨?_, ?_, fun _ hk => absurd hk List.not_mem_nil⟩
            · intro f hf
              obtain rfl := Option.some.inj hf
              exact hflag
            · intro f hf
              rcases List.mem_cons.mp hf with rfl | hf
              · exact .inl hflag
              · exact hh'.covers.token f hf
          exact (startWorkers_within hm env p.position p.partitions hh' hr).after hkeeps

theorem openRun_acts (hm : m.Local Owns) (p : Partitioning) :
    Acts (Leaf.OwnsRun (HoldsRun Owns)) (openRun m p) := by
  intro h ctx w hh s hs
  unfold openRun
  cases s.base.beginOpen with
  | error e => exact ⟨rfl, hh.fits.keeps_refl, hs⟩
  | ok base =>
      obtain ⟨honly, hkeeps, howned⟩ := startRun_within hm p base hh
      simp only [honly]
      generalize startRun m p ctx base w = x at hkeeps howned
      obtain ⟨result, w₁⟩ := x
      have hkeeps₁ : h.Keeps w w₁ := hkeeps
      cases result with
      | error e =>
          exact ⟨rfl, hkeeps₁, fun r hr => (hs r hr).mono hm hkeeps₁.upto_le⟩
      | ok r => exact ⟨rfl, hkeeps₁, holdsRun_some (howned r rfl)⟩

theorem fail_within (hm : m.Local Owns) {s : State σ} (e : QueryError) (hf : h.Fits w)
    (hs : Leaf.OwnsRun (HoldsRun Owns) (h.upto w) s) :
    Within h w (fun o => Leaf.OwnsRun (HoldsRun Owns) (h.upto o.world) o.state)
      (fail m s e w) (fail m s e (w.only h)) := by
  obtain ⟨base, source, run⟩ := s
  unfold fail
  cases run with
  | none => exact ⟨rfl, hf.keeps_refl, hs⟩
  | some r =>
      obtain ⟨honly, hkeeps, -⟩ := Run.shutdown_within hm hf (hs r rfl)
      simp only [honly]
      exact ⟨rfl, hkeeps, holdsRun_none⟩

theorem complete_within (hm : m.Local Owns) {s : State σ} {r : Run σ} (hf : h.Fits w)
    (hr : r.Owned Owns (h.upto w)) :
    Within h w (fun o => Leaf.OwnsRun (HoldsRun Owns) (h.upto o.world) o.state)
      (complete m s r w) (complete m s r (w.only h)) := by
  obtain ⟨honly, hkeeps, -⟩ := Run.shutdown_within hm hf hr
  simp only [complete, honly]
  generalize r.shutdown m w = x at hkeeps
  obtain ⟨r₁, w₁⟩ := x
  simp only [Carries.only]
  cases r₁.verdict with
  | error e => exact ⟨rfl, hkeeps, holdsRun_none⟩
  | ok u => exact ⟨rfl, hkeeps, holdsRun_none⟩

theorem receive_acts (hm : m.Local Owns) (fuel : Nat) :
    Acts (Leaf.OwnsRun (HoldsRun Owns)) fun ctx s w => receive m ctx fuel s w := by
  intro h ctx w hh s hs
  induction fuel generalizing s w with
  | zero => exact ⟨rfl, hh.fits.keeps_refl, hs⟩
  | succ fuel ih =>
      obtain ⟨honly, hkeeps, -⟩ := hh.check
      simp only [receive, honly]
      generalize w.check ctx = x at hkeeps
      obtain ⟨result, w₁⟩ := x
      have hkeeps₁ : h.Keeps w w₁ := hkeeps
      have hs₁ : Leaf.OwnsRun (HoldsRun Owns) (h.upto w₁) s :=
        fun r hr => (hs r hr).mono hm hkeeps₁.upto_le
      cases result with
      | error e => exact (fail_within hm e hkeeps₁.fits hs₁).after hkeeps₁
      | ok u =>
          obtain ⟨base, source, run⟩ := s
          cases run with
          | none => exact ⟨rfl, hkeeps₁, holdsRun_none⟩
          | some r =>
              have hr₁ := hs₁ r rfl
              simp only [Carries.only]
              by_cases hlive : r.live = 0
              · rw [if_pos hlive, if_pos hlive]
                exact (complete_within hm hkeeps₁.fits hr₁).after hkeeps₁
              · rw [if_neg hlive, if_neg hlive]
                obtain ⟨honly, hkeeps, howned⟩ := Run.await_within hm hkeeps₁.fits hr₁
                simp only [honly]
                generalize r.await m w₁ = x at hkeeps howned
                obtain ⟨receipt, r₂, w₂⟩ := x
                have hkeeps₂ : h.Keeps w w₂ := hkeeps₁.trans hkeeps
                have hnoted : ∀ i, (r₂.note i).Owned Owns (h.upto w₂) :=
                  fun _ => ⟨howned.flag, howned.token, howned.workers⟩
                have hh₂ := hh.keeps hkeeps₂
                simp only [Carries.only]
                rcases receipt with (⟨i, row⟩ | i | ⟨i, e⟩) | _ | _ | _
                · obtain ⟨honly, hkeeps, howned⟩ :=
                    Run.interleave_within hm hkeeps₂.fits howned
                  simp only [honly]
                  exact ⟨rfl, hkeeps₂.trans hkeeps, holdsRun_some howned⟩
                · exact (ih hh₂ (s := ⟨base, source, some (r₂.note i)⟩)
                    (holdsRun_some (hnoted i))).after hkeeps₂
                · exact (fail_within hm (s := ⟨base, source, some (r₂.note i)⟩) e hkeeps₂.fits
                    (holdsRun_some (hnoted i))).after hkeeps₂
                · exact (fail_within hm (s := ⟨base, source, some r₂⟩) _ hkeeps₂.fits
                    (holdsRun_some howned)).after hkeeps₂
                · exact (ih hh₂ (s := ⟨base, source, some r₂⟩)
                    (holdsRun_some howned)).after hkeeps₂
                · exact ⟨rfl, hkeeps₂, holdsRun_some howned⟩

theorem next_acts (hm : m.Local Owns) :
    Acts (Leaf.OwnsRun (HoldsRun Owns)) (next m) := by
  intro h ctx w hh s hs
  unfold next
  cases s.base.checkNext with
  | error e => exact ⟨rfl, hh.fits.keeps_refl, hs⟩
  | ok u => exact receive_acts hm (patience s w) hh hs

theorem closeRun_acts (hm : m.Local Owns) :
    Acts (Leaf.OwnsRun (HoldsRun Owns)) (closeRun m) := by
  intro h ctx w hh s hs
  obtain ⟨base, source, run⟩ := s
  unfold closeRun
  cases base.beginClose with
  | error e => exact ⟨rfl, hh.fits.keeps_refl, hs⟩
  | ok base =>
      cases run with
      | none => exact ⟨rfl, hh.fits.keeps_refl, hs⟩
      | some r =>
          obtain ⟨honly, hkeeps, -⟩ := Run.shutdown_within hm hh.fits (hs r rfl)
          simp only [honly]
          exact ⟨rfl, hkeeps, holdsRun_none⟩

/-- The next session to be handed out belongs to the party already. -/
theorem pending_only (hm : m.Local Owns) (p : Partitioning) {s : State σ} (hf : h.Fits w)
    (hc : h.Covers ctx) (hs : Leaf.OwnsRun (HoldsRun Owns) h s) :
    pending m p ctx s (w.only h) = pending m p ctx s w := by
  obtain ⟨base, source, run⟩ := s
  have hidle : m.pending { ctx with session := w.engine.issued } (m.fresh (.ofEnv .root))
      (w.only h) = m.pending { ctx with session := w.engine.issued }
        (m.fresh (.ofEnv .root)) w :=
    hm.pending hf ⟨hf.sessions _ (Nat.le_refl _), hc.token, hc.mode⟩ (hm.fresh _ _)
  unfold pending
  cases base.state with
  | active =>
      cases run with
      | none => rfl
      | some r => exact Run.pending_only hm hf (hs r rfl)
  | idle => exact congrArg (p.partitions.length * ·) hidle
  | destroyed => exact congrArg (p.partitions.length * ·) hidle

theorem machine_local (hm : m.Local Owns) (p : Partitioning) :
    (machine m p).Local (Leaf.OwnsRun (HoldsRun Owns)) := by
  refine Leaf.machine_local (common m p) ?_ (fun _ => holdsRun_none)
    (fun _ _ _ _ hf hc hs => pending_only hm p hf hc hs) (openRun_acts hm p) (next_acts hm)
    (closeRun_acts hm) ?_
  · intro h h' run hrun hle r hr
    exact (hrun r hr).mono hm hle
  · intro h w s hf hs
    obtain ⟨base, source, run⟩ := s
    dsimp only [machine, letGo]
    cases run with
    | none => exact ⟨rfl, hf.keeps_refl, trivial⟩
    | some r =>
        obtain ⟨honly, hkeeps, -⟩ := Run.shutdown_within hm hf (hs r rfl)
        simp only [honly]
        exact ⟨rfl, hkeeps, trivial⟩

end ParallelCursor

/-! ## Plans -/

/-- What the cursor of a plan holds: the open runs of its parallel maps. -/
def Plan.Holds : (p : Plan) → Ownership p.State
  | values .. => Leaf.OwnsRun Leaf.HoldsNothing
  | scan _ => Leaf.OwnsRun Leaf.HoldsNothing
  | select input _ => Node.OwnsInput input.Holds
  | project input _ => Node.OwnsInput input.Holds
  | aggregate input _ => Node.OwnsInput input.Holds
  | sort input _ => Node.OwnsInput input.Holds
  | map input _ => Leaf.OwnsRun (ParallelCursor.HoldsRun input.Holds)

/-- The cursor of a plan concerns nobody but its party. -/
theorem Plan.cursor_local (p : Plan) : p.cursor.Local p.Holds := by
  induction p with
  | values type rows => exact ValuesCursor.machine_local rows
  | scan s => exact IndexScanCursor.machine_local s
  | select input predicate ih => exact SelectCursor.machine_local ih predicate
  | project input p ih => exact ProjectCursor.machine_local ih p
  | aggregate input g ih => exact AggregateCursor.machine_local ih g
  | sort input s ih => exact SortCursor.machine_local ih s
  | map input m ih => exact ParallelCursor.machine_local ih m

end OrderedQuery
