import Mathlib.Algebra.Order.Group.Multiset
import OrderedQuery.Proofs.Plan.Aborts

/-!
# What a part of a query answers for

Workers begin transactions, and they are counted when they start and when they finish.  Part of
the way through a query there are transactions that its workers have still to end, and workers
that have still to be counted as finished; `Dues` lists both.

`Accounts` says that between two worlds nothing has changed beyond the dues.  The transactions
of all others are as they were, and the counters have moved by as much as the dues.
-/

namespace OrderedQuery

/-- What has still to come to its end. -/
@[ext]
structure Dues where
  /-- The sessions of transactions that have still to end. -/
  sessions : Multiset SessionId
  /-- Workers that have been counted as started, and not yet as finished. -/
  workers : Nat

namespace Dues

variable {α : Type}

instance : Zero Dues := ⟨⟨0, 0⟩⟩

instance : Add Dues := ⟨fun d e => ⟨d.sessions + e.sessions, d.workers + e.workers⟩⟩

@[simp] theorem sessions_zero : (0 : Dues).sessions = 0 := rfl

@[simp] theorem workers_zero : (0 : Dues).workers = 0 := rfl

@[simp] theorem sessions_add (d e : Dues) : (d + e).sessions = d.sessions + e.sessions := rfl

@[simp] theorem workers_add (d e : Dues) : (d + e).workers = d.workers + e.workers := rfl

instance : AddCommMonoid Dues where
  add_assoc _ _ _ := Dues.ext (add_assoc ..) (Nat.add_assoc ..)
  zero_add _ := Dues.ext (zero_add _) (Nat.zero_add _)
  add_zero _ := Dues.ext (add_zero _) (Nat.add_zero _)
  add_comm _ _ := Dues.ext (add_comm ..) (Nat.add_comm ..)
  nsmul := nsmulRec

/-- A transaction that has still to end. -/
def session (s : SessionId) : Dues := ⟨{s}, 0⟩

/-- A worker that has still to be counted as finished. -/
def worker : Dues := ⟨0, 1⟩

/-- The dues of one element of a list, apart from those of the others. -/
theorem exists_sum_map_set (dues : α → Dues) {l : List α} {i : Nat} {a : α} (h : l[i]? = some a) :
    ∃ rest, (l.map dues).sum = dues a + rest ∧
      ∀ b, ((l.set i b).map dues).sum = dues b + rest := by
  induction l generalizing i with
  | nil => cases h
  | cons c l ih =>
      cases i with
      | zero =>
          obtain rfl := Option.some.inj h
          exact ⟨(l.map dues).sum, rfl, fun b => rfl⟩
      | succ i =>
          obtain ⟨rest, hsum, hset⟩ := ih h
          refine ⟨dues c + rest, ?_, ?_⟩
          · rw [List.map_cons, List.sum_cons, hsum, add_left_comm]
          · intro b
            rw [List.set_cons_succ, List.map_cons, List.sum_cons, hset, add_left_comm]

theorem sum_map_eq_zero (dues : α → Dues) {l : List α} (h : ∀ a ∈ l, dues a = 0) :
    (l.map dues).sum = 0 := by
  induction l with
  | nil => rfl
  | cons a l ih =>
      rw [List.map_cons, List.sum_cons, h a List.mem_cons_self,
        ih fun b hb => h b (List.mem_cons_of_mem a hb), add_zero]

end Dues

/-! ## Transactions -/

namespace Engine

variable {e e' : Engine} {s : SessionId} {mode : Mode}

/-- The open transactions apart from those of the given sessions. -/
def beyond (e : Engine) (sessions : Multiset SessionId) : List (SessionId × Transaction) :=
  e.active.filter fun a => decide (a.1 ∉ sessions)

theorem mem_beyond {sessions : Multiset SessionId} {a : SessionId × Transaction} :
    a ∈ e.beyond sessions ↔ a ∈ e.active ∧ a.1 ∉ sessions := by
  rw [beyond, List.mem_filter, decide_eq_true_eq]

@[simp]
theorem beyond_zero (e : Engine) : e.beyond 0 = e.active :=
  List.filter_eq_self.mpr fun a _ => decide_eq_true (Multiset.notMem_zero a.1)

theorem beyond_add (e : Engine) (sessions sessions' : Multiset SessionId) :
    e.beyond (sessions + sessions') =
      (e.beyond sessions).filter fun a => decide (a.1 ∉ sessions') := by
  unfold beyond
  rw [List.filter_filter]
  apply List.filter_congr
  intro a _
  simp [Multiset.mem_add, not_or, Bool.and_comm]

theorem beyond_congr (h : e'.active = e.active) (sessions : Multiset SessionId) :
    e'.beyond sessions = e.beyond sessions := by
  rw [beyond, beyond, h]

theorem inTransaction_iff : e.inTransaction s = true ↔ ∃ t, (s, t) ∈ e.active := by
  unfold inTransaction transaction?
  rw [List.lookup_isSome_iff]
  constructor
  · rintro ⟨⟨s', t⟩, hmem, hs⟩
    obtain rfl : s = s' := eq_of_beq hs
    exact ⟨t, hmem⟩
  · rintro ⟨t, hmem⟩
    exact ⟨(s, t), hmem, beq_self_eq_true s⟩

theorem inTransaction_congr (h : e'.active = e.active) (s : SessionId) :
    e'.inTransaction s = e.inTransaction s := by
  rw [inTransaction, transaction?, h, inTransaction, transaction?]

theorem beyond_singleton_of_not_inTransaction (h : e.inTransaction s = false) :
    e.beyond {s} = e.active := by
  apply List.filter_eq_self.mpr
  rintro ⟨s', t⟩ hmem
  apply decide_eq_true
  intro hs
  obtain rfl : s' = s := Multiset.mem_singleton.mp hs
  rw [inTransaction_iff.mpr ⟨t, hmem⟩] at h
  cases h

theorem active_release (e : Engine) (s : SessionId) : (e.release s).active = e.beyond {s} := by
  apply List.filter_congr
  rintro ⟨s', t⟩ _
  by_cases hs : s' = s
  · simp [hs]
  · simp [hs, bne_iff_ne.mpr hs]

/-- Beginning a transaction changes none of the others. -/
theorem begin_eq_ok (h : e.begin s mode = .ok e') :
    e'.beyond {s} = e.active ∧ e'.inTransaction s = true := by
  unfold Engine.begin at h
  split at h
  · cases h
  · rename_i hout
    cases h
    refine ⟨?_, inTransaction_iff.mpr ⟨_, List.mem_append_right _ (List.mem_singleton_self _)⟩⟩
    have hsingle := beyond_singleton_of_not_inTransaction (Bool.eq_false_iff.mpr hout)
    unfold beyond at hsingle ⊢
    rw [List.filter_append, hsingle]
    simp

/-- Committing a transaction ends it, and changes none of the others. -/
theorem active_commit (h : e.commit s = .ok e') : e'.active = e.beyond {s} := by
  unfold commit at h
  split at h
  · cases h
  · dsimp only at h
    split at h
    · cases h
      exact active_release e s
    · cases h
      exact active_release e s

/-- A transaction that cannot be committed was not open. -/
theorem beyond_of_commit_error {x : StoreError} (h : e.commit s = .error x) :
    e.beyond {s} = e.active := by
  apply beyond_singleton_of_not_inTransaction
  unfold commit at h
  split at h
  · rename_i hnone
    rw [inTransaction, hnone]
    rfl
  · dsimp only at h
    split at h
    · cases h
    · cases h

end Engine

/-! ## Signals -/

namespace Signals

variable {s s' : Signals} {f : Nat} {t : Token}

theorem raised_tick (h : f ∈ s.raised) : f ∈ s.tick.raised := by
  unfold tick
  split
  · exact h
  · exact List.mem_cons_of_mem _ h
  · exact h

theorem raised_cancel (t : Token) (h : f ∈ s.raised) : f ∈ (s.cancel t).raised := by
  unfold cancel
  split
  · exact h
  · exact List.mem_cons_of_mem _ h

/-- A token stays cancelled. -/
theorem isCancelled_mono (h : ∀ f ∈ s.raised, f ∈ s'.raised) (ht : s.isCancelled t = true) :
    s'.isCancelled t = true := by
  obtain ⟨f, hf, hraised⟩ := List.any_eq_true.mp ht
  exact List.any_eq_true.mpr ⟨f, hf, decide_eq_true (h f (of_decide_eq_true hraised))⟩

theorem isCancelled_cancel (s : Signals) (ht : t.flags ≠ []) :
    (s.cancel t).isCancelled t = true := by
  obtain ⟨f, flags, hflags⟩ := List.exists_cons_of_ne_nil ht
  unfold cancel isCancelled
  rw [hflags]
  simp

end Signals

/-! ## Worlds -/

/-- Between two worlds nothing has happened but that time has passed and tokens have been
cancelled. -/
structure World.Passes (w w' : World) : Prop where
  active : w'.engine.active = w.engine.active
  started : w'.stats.workersStarted = w.stats.workersStarted
  finished : w'.stats.workersFinished = w.stats.workersFinished
  raised : ∀ f ∈ w.signals.raised, f ∈ w'.signals.raised
  schedule : w'.schedule.length ≤ w.schedule.length

/-- Between two worlds with the dues `d` and `d'`, nothing has changed beyond them. -/
structure Accounts (d d' : Dues) (w w' : World) : Prop where
  others : w'.engine.beyond d'.sessions = w.engine.beyond d.sessions
  counted : w'.stats.workersStarted + w.stats.workersFinished + d.workers =
    w.stats.workersStarted + w'.stats.workersFinished + d'.workers
  started : w.stats.workersStarted ≤ w'.stats.workersStarted
  finished : w.stats.workersFinished ≤ w'.stats.workersFinished
  raised : ∀ f ∈ w.signals.raised, f ∈ w'.signals.raised
  schedule : w'.schedule.length ≤ w.schedule.length

/-- For workers that write, nobody else writes, and their transactions are open. -/
structure World.Clear (mode : Mode) (d : Dues) (w : World) : Prop where
  writers : mode = .readWrite → ∀ a ∈ w.engine.active, a.2.mode = .readWrite → a.1 ∈ d.sessions
  held : mode = .readWrite → ∀ s ∈ d.sessions, w.engine.inTransaction s = true

variable {d d' d'' e : Dues} {w w' w'' : World} {mode : Mode}

namespace Accounts

theorem refl (d : Dues) (w : World) : Accounts d d w w :=
  ⟨rfl, rfl, Nat.le_refl _, Nat.le_refl _, fun _ hf => hf, Nat.le_refl _⟩

theorem trans (h : Accounts d d' w w') (h' : Accounts d' d'' w' w'') : Accounts d d'' w w'' where
  others := h'.others.trans h.others
  counted := by
    have hcounted := h.counted
    have hcounted' := h'.counted
    omega
  started := Nat.le_trans h.started h'.started
  finished := Nat.le_trans h.finished h'.finished
  raised f hf := h'.raised f (h.raised f hf)
  schedule := Nat.le_trans h'.schedule h.schedule

/-- What is due elsewhere stays due. -/
theorem add_right (h : Accounts d d' w w') (e : Dues) : Accounts (d + e) (d' + e) w w' where
  others := by
    rw [Dues.sessions_add, Dues.sessions_add, Engine.beyond_add, Engine.beyond_add, h.others]
  counted := by
    have hcounted := h.counted
    rw [Dues.workers_add, Dues.workers_add]
    omega
  started := h.started
  finished := h.finished
  raised := h.raised
  schedule := h.schedule

theorem add_left (h : Accounts d d' w w') (e : Dues) : Accounts (e + d) (e + d') w w' := by
  rw [add_comm e d, add_comm e d']
  exact h.add_right e

/-- Transactions of others are open if and only if they were. -/
theorem mem_active_iff (h : Accounts d d' w w') {a : SessionId × Transaction}
    (ha : a.1 ∉ d.sessions) (ha' : a.1 ∉ d'.sessions) :
    a ∈ w'.engine.active ↔ a ∈ w.engine.active := by
  have hmem : a ∈ w'.engine.beyond d'.sessions ↔ a ∈ w.engine.beyond d.sessions := by
    rw [h.others]
  rw [Engine.mem_beyond, Engine.mem_beyond] at hmem
  simpa [ha, ha'] using hmem

/-- A transaction that has come to be due was not open before. -/
theorem not_mem_active (h : Accounts d d' w w') {a : SessionId × Transaction}
    (ha : a.1 ∉ d.sessions) (ha' : a.1 ∈ d'.sessions) : a ∉ w.engine.active := by
  intro hmem
  have hleft : a ∈ w'.engine.beyond d'.sessions := by
    rw [h.others]
    exact Engine.mem_beyond.mpr ⟨hmem, ha⟩
  exact (Engine.mem_beyond.mp hleft).2 ha'

/-- A transaction that is no longer due is not open. -/
theorem not_mem_active' (h : Accounts d d' w w') {a : SessionId × Transaction}
    (ha : a.1 ∈ d.sessions) (ha' : a.1 ∉ d'.sessions) : a ∉ w'.engine.active := by
  intro hmem
  have hleft : a ∈ w.engine.beyond d.sessions := by
    rw [← h.others]
    exact Engine.mem_beyond.mpr ⟨hmem, ha'⟩
  exact (Engine.mem_beyond.mp hleft).2 ha

/-- When nothing is due before or after, the open transactions are the same. -/
theorem active_eq (h : Accounts 0 0 w w') : w'.engine.active = w.engine.active := by
  simpa using h.others

theorem inTransaction_eq (h : Accounts 0 0 w w') (s : SessionId) :
    w'.engine.inTransaction s = w.engine.inTransaction s :=
  Engine.inTransaction_congr h.active_eq s

end Accounts

namespace World

theorem Passes.refl (w : World) : w.Passes w :=
  ⟨rfl, rfl, rfl, fun _ hf => hf, Nat.le_refl _⟩

theorem Passes.trans (h : w.Passes w') (h' : w'.Passes w'') : w.Passes w'' where
  active := h'.active.trans h.active
  started := h'.started.trans h.started
  finished := h'.finished.trans h.finished
  raised f hf := h'.raised f (h.raised f hf)
  schedule := Nat.le_trans h'.schedule h.schedule

theorem Passes.accounts (h : w.Passes w') (d : Dues) : Accounts d d w w' where
  others := Engine.beyond_congr h.active d.sessions
  counted := by rw [h.started, h.finished]
  started := Nat.le_of_eq h.started.symm
  finished := Nat.le_of_eq h.finished.symm
  raised := h.raised
  schedule := h.schedule

theorem clear_of_readOnly (d : Dues) (w : World) : w.Clear .readOnly d := ⟨nofun, nofun⟩

/-- Whoever writes after a change did so before, or it has come to be due. -/
theorem Clear.accounts (h : w.Clear mode d) (ha : Accounts d d' w w')
    (hheld : mode = .readWrite → ∀ s ∈ d'.sessions, w'.engine.inTransaction s = true) :
    w'.Clear mode d' where
  writers hmode a hmem hwrites := by
    by_contra hnot
    have hleft : a ∈ w.engine.beyond d.sessions := by
      rw [← ha.others]
      exact Engine.mem_beyond.mpr ⟨hmem, hnot⟩
    obtain ⟨hbefore, hother⟩ := Engine.mem_beyond.mp hleft
    exact hother (h.writers hmode a hbefore hwrites)
  held := hheld

theorem Clear.passes (h : w.Clear mode d) (hw : w.Passes w') : w'.Clear mode d := by
  apply h.accounts (hw.accounts d)
  intro hmode s hs
  rw [Engine.inTransaction_congr hw.active]
  exact h.held hmode s hs

/-- Where no transaction is due, nobody has to wait. -/
theorem Clear.mustWait_eq_false (h : w.Clear .readWrite d) (hd : d.sessions = 0)
    (s : SessionId) : w.engine.mustWait s = false := by
  have hwriter : w.engine.hasWriter = false := by
    apply List.any_eq_false.mpr
    intro a hmem hwrites
    have hdue := h.writers rfl a hmem (of_decide_eq_true hwrites)
    rw [hd] at hdue
    exact Multiset.notMem_zero a.1 hdue
  rw [Engine.mustWait, hwriter, Bool.and_false]

/-! ### What operations do -/

theorem passes_check (w : World) (ctx : Context) : w.Passes (w.check ctx).2 :=
  ⟨rfl, rfl, rfl, fun _ hf => Signals.raised_tick hf, Nat.le_refl _⟩

theorem passes_cancel (w : World) (t : Token) :
    w.Passes { w with signals := w.signals.cancel t } :=
  ⟨rfl, rfl, rfl, fun _ hf => Signals.raised_cancel t hf, Nat.le_refl _⟩

theorem passes_newChild (w : World) (t : Token) :
    w.Passes { w with signals := (w.signals.newChild t).2 } :=
  ⟨rfl, rfl, rfl, fun _ hf => hf, Nat.le_refl _⟩

theorem passes_recordRead (w : World) (n : Nat) : w.Passes (w.recordRead n) :=
  ⟨rfl, rfl, rfl, fun _ hf => hf, Nat.le_refl _⟩

theorem passes_draw (w : World) : w.Passes w.draw.2 := by
  unfold draw
  split
  · exact .refl w
  · rename_i heq
    exact ⟨rfl, rfl, rfl, fun _ hf => hf, by rw [heq]; exact Nat.le_succ _⟩

theorem passes_refuses (w : World) : w.Passes w.refuses.2 := by
  unfold refuses
  split
  · exact .refl w
  · exact ⟨rfl, rfl, rfl, fun _ hf => hf, Nat.le_refl _⟩

theorem passes_spawn (w : World) : w.Passes w.spawn.2 := by
  unfold spawn
  split
  · exact .refl w
  · exact ⟨rfl, rfl, rfl, fun _ hf => hf, Nat.le_refl _⟩

theorem mem_spawns_of_spawn {report : String} (h : w.spawn = (some report, w')) :
    some report ∈ w.spawns := by
  unfold spawn at h
  split at h
  · cases h
  · rename_i heq
    obtain ⟨rfl, -⟩ := Prod.mk.inj h
    rw [heq]
    exact List.mem_cons_self

theorem passes_deriveContext (w : World) (ctx : Context) (t : Token) :
    w.Passes (w.deriveContext ctx t).2 := by
  have hchecked := w.passes_check ctx
  unfold deriveContext
  generalize w.check ctx = x at hchecked
  obtain ⟨_ | _, w₁⟩ := x
  · exact hchecked
  · exact ⟨hchecked.active, hchecked.started, hchecked.finished, hchecked.raised,
      hchecked.schedule⟩

theorem deriveContext_eq_ok {ctx context : Context} {t : Token}
    (h : w.deriveContext ctx t = (.ok context, w')) :
    context.config = ctx.config ∧ context.token = t := by
  unfold deriveContext at h
  generalize w.check ctx = x at h
  obtain ⟨_ | _, w₁⟩ := x
  · cases h
  · cases h
    exact ⟨rfl, rfl⟩

theorem passes_hire (w : World) (ctx : Context) (t : Token) (number : Nat) :
    w.Passes (w.hire ctx t number).2 := by
  have hderived := w.passes_deriveContext ctx t
  unfold hire
  generalize w.deriveContext ctx t = x at hderived
  obtain ⟨_ | context, w₁⟩ := x
  · exact hderived
  · have hspawned := hderived.trans w₁.passes_spawn
    dsimp only
    generalize w₁.spawn = x at hspawned
    obtain ⟨_ | report, w₂⟩ := x
    · exact hspawned
    · exact hspawned

/-- As long as nothing is cancelled, only the system keeps a worker from being hired. -/
theorem hire_eq {ctx : Context} (hcheck : w.check ctx = (.ok (), w)) (t : Token) (number : Nat) :
    w.hire ctx t number =
      match w.spawn with
      | (some report, w) =>
          (.error (.worker number (.unstarted report)), { w with engine := w.engine.derive.2 })
      | (none, w) =>
          (.ok ⟨ctx.config, w.engine.issued, t⟩, { w with engine := w.engine.derive.2 }) := by
  rw [hire, deriveContext, hcheck]
  obtain ⟨engine, signals, stats, schedule, refusals, spawns⟩ := w
  rcases spawns with _ | ⟨_ | report, spawns⟩ <;> rfl

/-- A worker that has been hired works with what its run works with. -/
theorem hire_eq_ok {ctx context : Context} {t : Token} {number : Nat}
    (h : w.hire ctx t number = (.ok context, w')) :
    context.config = ctx.config ∧ context.token = t := by
  unfold hire at h
  cases hderived : w.deriveContext ctx t with
  | mk derived w₁ =>
      rw [hderived] at h
      cases derived with
      | error e => cases h
      | ok derived =>
          dsimp only at h
          split at h
          · cases h
          · cases h
            exact deriveContext_eq_ok hderived

theorem noAbort_check (w : World) (ctx : Context) : NoAbort (w.check ctx).1 := by
  unfold check
  dsimp only
  split <;> exact nofun

theorem noAbort_deriveContext (w : World) (ctx : Context) (t : Token) :
    NoAbort (w.deriveContext ctx t).1 := by
  have hchecked := w.noAbort_check ctx
  unfold deriveContext
  generalize w.check ctx = x at hchecked
  obtain ⟨_ | _, w₁⟩ := x
  · exact .error hchecked.ne_aborted
  · exact nofun

theorem noAbort_hire (w : World) (ctx : Context) (t : Token) (number : Nat) :
    NoAbort (w.hire ctx t number).1 := by
  have hderived := w.noAbort_deriveContext ctx t
  unfold hire
  generalize w.deriveContext ctx t = x at hderived
  obtain ⟨_ | _, w₁⟩ := x
  · exact .error hderived.ne_aborted
  · dsimp only
    split <;> exact nofun

/-- A look at a token that has been cancelled finds that out. -/
theorem check_eq_error {ctx : Context} (h : w.signals.isCancelled ctx.token = true) :
    (w.check ctx).1 = .error .cancelled := by
  have hcancelled : w.signals.tick.isCancelled ctx.token = true :=
    Signals.isCancelled_mono (fun _ hf => Signals.raised_tick hf) h
  unfold check
  simp only [hcancelled, if_true]

theorem accounts_recordStarted (w : World) : Accounts 0 .worker w w.recordStarted where
  others := rfl
  counted := by
    simp only [recordStarted, Dues.workers_zero, Dues.worker]
    omega
  started := Nat.le_succ _
  finished := Nat.le_refl _
  raised _ hf := hf
  schedule := Nat.le_refl _

theorem accounts_recordFinished (w : World) : Accounts .worker 0 w w.recordFinished where
  others := rfl
  counted := by
    simp only [recordFinished, Dues.workers_zero, Dues.worker]
    omega
  started := Nat.le_refl _
  finished := Nat.le_succ _
  raised _ hf := hf
  schedule := Nat.le_refl _

/-- The engine has gone on to `engine`, where the transaction of a session is no longer open. -/
theorem accounts_ended {engine : Engine} {s : SessionId}
    (h : engine.active = w.engine.beyond {s}) : Accounts (.session s) 0 w { w with engine } where
  others := (Engine.beyond_zero engine).trans h
  counted := rfl
  started := Nat.le_refl _
  finished := Nat.le_refl _
  raised _ hf := hf
  schedule := Nat.le_refl _

variable {ctx : Context}

theorem accounts_rollback (w : World) (ctx : Context) :
    Accounts (.session ctx.session) 0 w (w.rollback ctx) :=
  accounts_ended (Engine.active_release w.engine ctx.session)

theorem accounts_commitWork (w : World) (ctx : Context) :
    Accounts (.session ctx.session) 0 w (w.commitWork ctx).2 := by
  have hrefuses := w.passes_refuses.accounts (.session ctx.session)
  unfold commitWork
  generalize w.refuses = x at hrefuses
  obtain ⟨refused, w₁⟩ := x
  dsimp only at hrefuses ⊢
  cases refused with
  | true => exact hrefuses.trans (accounts_rollback w₁ ctx)
  | false =>
      simp only [Bool.false_eq_true, if_false]
      cases hcommit : w₁.engine.commit ctx.session with
      | ok engine => exact hrefuses.trans (accounts_ended (Engine.active_commit hcommit))
      | error e =>
          exact hrefuses.trans (accounts_ended (Engine.beyond_of_commit_error hcommit).symm)

theorem noAbort_commitWork (w : World) (ctx : Context) : NoAbort (w.commitWork ctx).1 := by
  unfold commitWork
  dsimp only
  split
  · exact nofun
  · split <;> exact nofun

/-- Either a transaction has been begun, or the open ones are as they were. -/
theorem beginWork_cases (w : World) (ctx : Context) :
    (∃ w', w.beginWork ctx = (.ok (), w') ∧ Accounts 0 (.session ctx.session) w w' ∧
        w'.engine.inTransaction ctx.session = true) ∨
      ∃ e w', w.beginWork ctx = (.error (.store e), w') ∧ w.Passes w' := by
  have hrefuses := w.passes_refuses
  unfold beginWork
  generalize w.refuses = x at hrefuses
  obtain ⟨refused, w₁⟩ := x
  dsimp only at hrefuses ⊢
  cases refused with
  | true => exact .inr ⟨.refused, w₁, rfl, hrefuses⟩
  | false =>
      simp only [Bool.false_eq_true, if_false]
      cases hbegin : w₁.engine.begin ctx.session ctx.config.mode with
      | error e => exact .inr ⟨e, w₁, rfl, hrefuses⟩
      | ok engine =>
          obtain ⟨hbeyond, hin⟩ := Engine.begin_eq_ok hbegin
          have hbegun : Accounts 0 (.session ctx.session) w₁ { w₁ with engine } :=
            ⟨hbeyond.trans (Engine.beyond_zero _).symm, rfl, Nat.le_refl _, Nat.le_refl _,
              fun _ hf => hf, Nat.le_refl _⟩
          exact .inl ⟨_, rfl, (hrefuses.accounts 0).trans hbegun, hin⟩

end World
end OrderedQuery
