import Mathlib.Logic.Relation
import OrderedQuery.Cursor.Parallel.Cursor
import OrderedQuery.Proofs.Cursor.Parallel.Duties
import OrderedQuery.Proofs.Cursor.Parallel.Progress

/-!
# Runs step by step

`Run.Step` is one step of a run: of one of its workers, of the reader, or of time.  Whatever
steps are taken in whatever order, the run answers for what its workers answer for, and it never
gets stuck: until every worker has come to its end, one of them can take a step, or there is a
message for the reader.

After the reader has cancelled the workers and gone, no worker takes many more steps, since none
hands out another row.  So a run that is shut down comes to its end.
-/

namespace OrderedQuery

/-- The message does not tell that the thread of a worker was ended from within. -/
def Message.Returns : Message → Prop
  | failed _ e => e ≠ .aborted
  | _ => True

/-- There is room in the channel, and all workers that have reported did so by themselves. -/
structure Channel.Orderly (ch : Channel) : Prop where
  room : 0 < ch.capacity
  returns : ∀ message ∈ ch.queue, message.Returns

namespace Channel

variable {ch : Channel}

theorem Orderly.send (h : ch.Orderly) {message : Message} (hmessage : message.Returns) :
    (ch.send message).Orderly := by
  unfold Channel.send
  split
  · refine ⟨h.room, ?_⟩
    intro message' hmem
    rcases List.mem_append.mp hmem with hmem | hmem
    · exact h.returns message' hmem
    · rw [List.mem_singleton.mp hmem]
      exact hmessage
  · exact h

theorem Orderly.receive (h : ch.Orderly) {message : Message} {queue : List Message}
    (hqueue : ch.queue = message :: queue) : Orderly { ch with queue } := by
  refine ⟨h.room, ?_⟩
  intro message' hmem
  apply h.returns
  rw [hqueue]
  exact List.mem_cons_of_mem message hmem

theorem Orderly.abandon (h : ch.Orderly) : ch.abandon.Orderly :=
  ⟨h.room, List.forall_mem_nil _⟩

theorem hasReader_send (ch : Channel) (message : Message) :
    (ch.send message).hasReader = ch.hasReader := by
  unfold send
  split <;> rfl

end Channel

namespace Worker

variable {σ : Type} {m : Machine σ} {D : Discipline σ} {ctx : Context} {token : Token}
  {k : Worker σ} {ch : Channel} {w : World}

/-- What a worker sends is in order. -/
theorem Allows.step_channel (h : k.Allows D ctx token w) (hch : ch.Orderly) (i : Nat) :
    (k.step m i ch w).2.1.Orderly ∧ (k.step m i ch w).2.1.hasReader = ch.hasReader := by
  have hreturns := h.orderly.returns
  unfold Worker.step
  cases hphase : k.phase with
  | sending row =>
      dsimp only
      split
      · exact ⟨hch.send trivial, ch.hasReader_send _⟩
      · exact ⟨hch, rfl⟩
  | reporting result =>
      rw [hphase] at hreturns
      have hreport : (report i result).Returns := by
        cases result with
        | ok _ => trivial
        | error e => exact NoAbort.ne_aborted hreturns
      exact ⟨hch.send hreport, ch.hasReader_send _⟩
  | _ => exact ⟨hch, rfl⟩

end Worker

namespace Run

variable {σ : Type}

/-- A step of a run that has been started in a context for given partitions. -/
inductive Step (m : Machine σ) (p : Partitioning) (ctx : Context) :
    Run σ × World → Run σ × World → Prop where
  /-- A worker that need not wait takes a step. -/
  | worker {r : Run σ} {w : World} {i : Nat} (hi : i ∈ r.ready w) :
      Step m p ctx (r, w) (r.stepWorker m i w)
  /-- The worker of the next partition is started. -/
  | spawn {r : Run σ} {w w' : World} {b : Binding} {context : Context} (env : Env)
      (hb : p.partitions[r.workers.length]? = some b)
      (hhired : w.hire ctx r.token r.workers.length = (.ok context, w')) :
      Step m p ctx (r, w) ({ r with
        workers := r.workers ++ [.start m context (env.fork.set p.position b)] },
          w'.recordStarted)
  /-- The worker of the next partition cannot be started. -/
  | refuse {r : Run σ} {w w' : World} {e : QueryError}
      (hhired : w.hire ctx r.token r.workers.length = (.error e, w')) :
      Step m p ctx (r, w) (r, w')
  /-- The reader takes a message. -/
  | receive {r : Run σ} {w : World} {message : Message} {queue : List Message}
      (hqueue : r.channel.queue = message :: queue) :
      Step m p ctx (r, w) ({ r with channel := { r.channel with queue } }, w)
  /-- The reader notes the report of a worker. -/
  | note (r : Run σ) (w : World) (i : Nat) : Step m p ctx (r, w) (r.note i, w)
  /-- The reader goes. -/
  | hangUp (r : Run σ) (w : World) :
      Step m p ctx (r, w) ({ r with channel := r.channel.abandon }, w)
  /-- It is chosen who is next. -/
  | choose (r : Run σ) (w : World) : Step m p ctx (r, w) (r, w.draw.2)
  /-- Somebody looks whether a token is cancelled. -/
  | look (r : Run σ) (w : World) (context : Context) :
      Step m p ctx (r, w) (r, (w.check context).2)
  /-- Somebody cancels a token. -/
  | cancel (r : Run σ) (w : World) (t : Token) :
      Step m p ctx (r, w) (r, { w with signals := w.signals.cancel t })

/-- Any number of steps. -/
abbrev Steps (m : Machine σ) (p : Partitioning) (ctx : Context) :
    Run σ × World → Run σ × World → Prop :=
  Relation.ReflTransGen (Step m p ctx)

/-- What a run answers for. -/
def dues (D : Discipline σ) (r : Run σ) : Dues :=
  (r.workers.map fun k => k.dues D).sum

/-- A run that has been started in a context for given partitions. -/
structure Orderly (D : Discipline σ) (p : Partitioning) (ctx : Context) (r : Run σ) : Prop where
  token : r.token.flags ≠ []
  channel : r.channel.Orderly
  started : r.workers.length ≤ p.partitions.length
  writers : ctx.config.mode = .readWrite → p.partitions.length ≤ 1
  workers : ∀ k ∈ r.workers, k.Orderly D ctx r.token

/-- A run can go on, as far as transactions are concerned. -/
structure Allows (D : Discipline σ) (p : Partitioning) (ctx : Context) (x : Run σ × World) :
    Prop where
  orderly : x.1.Orderly D p ctx
  clear : x.2.Clear ctx.config.mode (x.1.dues D)

/-- A run has gone on as it should. -/
structure Leads (D : Discipline σ) (p : Partitioning) (ctx : Context) (x y : Run σ × World) :
    Prop where
  allows : Allows D p ctx y
  accounts : Accounts (x.1.dues D) (y.1.dues D) x.2 y.2

variable {m : Machine σ} {D : Discipline σ} {p : Partitioning} {ctx : Context}
  {r r' : Run σ} {k : Worker σ} {i : Nat} {w w' : World} {x y z : Run σ × World}

/-- Alone in its run, a worker answers for all that the run does. -/
theorem Orderly.dues_eq (h : r.Orderly D p ctx) (hmode : ctx.config.mode = .readWrite)
    (hk : r.workers[i]? = some k) : r.dues D = k.dues D := by
  have hlength : r.workers.length ≤ 1 := Nat.le_trans h.started (h.writers hmode)
  unfold dues
  match hworkers : r.workers with
  | [] => rw [hworkers] at hk; cases hk
  | [k'] =>
      rw [hworkers] at hk
      cases i with
      | zero =>
          obtain rfl := Option.some.inj hk
          exact List.sum_singleton
      | succ i => cases hk
  | _ :: _ :: rest =>
      rw [hworkers] at hlength
      simp at hlength

theorem Orderly.clear_iff (h : r.Orderly D p ctx) (hk : r.workers[i]? = some k) :
    w.Clear ctx.config.mode (r.dues D) ↔ w.Clear ctx.config.mode (k.dues D) := by
  cases hmode : ctx.config.mode with
  | readOnly => exact ⟨fun _ => w.clear_of_readOnly _, fun _ => w.clear_of_readOnly _⟩
  | readWrite => rw [h.dues_eq hmode hk]

theorem Allows.worker (h : Allows D p ctx (r, w)) (hk : r.workers[i]? = some k) :
    k.Allows D ctx r.token w :=
  ⟨h.orderly.workers k (List.mem_of_getElem? hk), (h.orderly.clear_iff hk).mp h.clear⟩

theorem Leads.trans (h : Leads D p ctx x y) (h' : Leads D p ctx y z) : Leads D p ctx x z :=
  ⟨h'.allows, h.accounts.trans h'.accounts⟩

/-- The reader does something, or time passes. -/
theorem Allows.leads_of_passes (h : Allows D p ctx (r, w)) (htoken : r'.token = r.token)
    (hworkers : r'.workers = r.workers) (hch : r'.channel.Orderly) (hw : w.Passes w') :
    Leads D p ctx (r, w) (r', w') := by
  have hdues : r'.dues D = r.dues D := by rw [dues, hworkers, dues]
  refine ⟨⟨⟨htoken.symm ▸ h.orderly.token, hch, ?_, h.orderly.writers, ?_⟩, ?_⟩, ?_⟩
  · rw [hworkers]
    exact h.orderly.started
  · rw [hworkers, htoken]
    exact h.orderly.workers
  · show w'.Clear _ (r'.dues D)
    rw [hdues]
    exact h.clear.passes hw
  · show Accounts (r.dues D) (r'.dues D) w w'
    rw [hdues]
    exact hw.accounts _

theorem Allows.stepWorker (hm : m.Disciplined D) (h : Allows D p ctx (r, w)) (i : Nat) :
    Leads D p ctx (r, w) (r.stepWorker m i w) := by
  unfold Run.stepWorker
  cases hk : r.workers[i]? with
  | none => exact ⟨h, .refl _ w⟩
  | some k =>
      have hworker := h.worker hk
      obtain ⟨hch, -⟩ := hworker.step_channel (m := m) h.orderly.channel i
      obtain ⟨hallows, haccounts⟩ := hworker.step hm i r.channel
      dsimp only at hallows haccounts ⊢
      generalize k.step m i r.channel w = stepped at hch hallows haccounts
      obtain ⟨k', ch', w'⟩ := stepped
      dsimp only at hch hallows haccounts ⊢
      have hk' : (r.workers.set i k')[i]? = some k' :=
        List.getElem?_set_self (List.getElem?_eq_some_iff.mp hk).1
      have horderly : Orderly D p ctx { r with workers := r.workers.set i k', channel := ch' } := by
        refine ⟨h.orderly.token, hch, ?_, h.orderly.writers, ?_⟩
        · rw [List.length_set]
          exact h.orderly.started
        · intro k'' hmem
          rcases List.mem_or_eq_of_mem_set hmem with hmem | rfl
          · exact h.orderly.workers k'' hmem
          · exact hallows.orderly
      obtain ⟨rest, hsum, hset⟩ := Dues.exists_sum_map_set (fun k => k.dues D) hk
      refine ⟨⟨horderly, (horderly.clear_iff hk').mpr hallows.clear⟩, ?_⟩
      unfold dues
      dsimp only
      rw [hsum, hset]
      exact haccounts.add_right rest

theorem Allows.spawn (hm : m.Disciplined D) (h : Allows D p ctx (r, w)) {b : Binding}
    {context : Context} (env : Env) (hb : p.partitions[r.workers.length]? = some b)
    (hhired : w.hire ctx r.token r.workers.length = (.ok context, w')) :
    Leads D p ctx (r, w)
      ({ r with workers := r.workers ++ [.start m context (env.fork.set p.position b)] },
        w'.recordStarted) := by
  obtain ⟨hconfig, htoken⟩ := World.hire_eq_ok hhired
  have hpasses : w.Passes w' := by
    have hpasses := w.passes_hire ctx r.token r.workers.length
    rwa [hhired] at hpasses
  have hrests := hm.rests (.ofEnv (env.fork.set p.position b))
  have hdues : dues D { r with
      workers := r.workers ++ [.start m context (env.fork.set p.position b)] } =
      r.dues D + .worker := by
    unfold dues
    rw [List.map_append, List.sum_append, List.map_singleton, List.sum_singleton,
      Worker.dues_of_rests hrests]
    rfl
  have haccounts : Accounts (r.dues D) (r.dues D + .worker) w w'.recordStarted := by
    have hadded := (World.accounts_recordStarted w').add_left (r.dues D)
    rw [add_zero] at hadded
    exact (hpasses.accounts _).trans hadded
  refine ⟨⟨⟨h.orderly.token, h.orderly.channel, ?_, h.orderly.writers, ?_⟩, ?_⟩, ?_⟩
  · rw [List.length_append]
    exact (List.getElem?_eq_some_iff.mp hb).1
  · intro k hmem
    rcases List.mem_append.mp hmem with hmem | hmem
    · exact h.orderly.workers k hmem
    · rw [List.mem_singleton.mp hmem]
      exact ⟨hconfig, htoken, hm.fresh context _, trivial, fun _ => hrests, fun _ => hrests⟩
  · rw [hdues]
    apply h.clear.accounts haccounts
    intro hmode s hs
    have hheld := h.clear.held hmode s (by simpa [Dues.worker] using hs)
    show w'.engine.inTransaction s = true
    rwa [Engine.inTransaction_congr hpasses.active]
  · rw [hdues]
    exact haccounts

/-- Every step of a run keeps it in order, and changes the world by what the run answers for. -/
theorem Step.leads (hm : m.Disciplined D) (h : Step m p ctx x y) (hx : Allows D p ctx x) :
    Leads D p ctx x y := by
  have hch := hx.orderly.channel
  cases h with
  | worker hi => exact hx.stepWorker hm _
  | spawn env hb hhired => exact hx.spawn hm env hb hhired
  | @refuse r w w' e hhired =>
      have hpasses := w.passes_hire ctx r.token r.workers.length
      rw [hhired] at hpasses
      exact hx.leads_of_passes rfl rfl hch hpasses
  | receive hqueue => exact hx.leads_of_passes rfl rfl (hch.receive hqueue) (.refl _)
  | note r w i => exact hx.leads_of_passes rfl rfl hch (.refl w)
  | hangUp r w => exact hx.leads_of_passes rfl rfl hch.abandon (.refl w)
  | choose r w => exact hx.leads_of_passes rfl rfl hch w.passes_draw
  | look r w context => exact hx.leads_of_passes rfl rfl hch (w.passes_check context)
  | cancel r w t => exact hx.leads_of_passes rfl rfl hch (w.passes_cancel t)

theorem Steps.leads (hm : m.Disciplined D) (h : Steps m p ctx x y) (hx : Allows D p ctx x) :
    Leads D p ctx x y := by
  induction h with
  | refl => exact ⟨hx, .refl _ _⟩
  | tail _ hstep ih => exact ih.trans (hstep.leads hm ih.allows)

/-! ## No run gets stuck -/

/-- Nobody can go on: no worker that has not come to its end can take a step, and there is no
message for the reader. -/
def Stuck (r : Run σ) (w : World) : Prop :=
  r.allDone = false ∧ r.ready w = [] ∧ (r.channel.hasReader = true → r.channel.queue = [])

theorem Allows.not_stuck (h : Allows D p ctx (r, w)) : ¬ r.Stuck w := by
  rintro ⟨hdone, hready, hqueue⟩
  obtain ⟨k, hmem, hnot⟩ := List.all_eq_false.mp hdone
  obtain ⟨i, hk⟩ := List.getElem?_of_mem hmem
  have hworker := h.worker hk
  have haccepts : r.channel.accepts = true := by
    unfold Channel.accepts
    cases hreader : r.channel.hasReader with
    | false => rfl
    | true =>
        rw [hqueue hreader]
        simp [h.orderly.channel.room]
  have hcan : k.canStep r.channel w = true := by
    unfold Worker.canStep
    cases hphase : k.phase with
    | begin =>
        cases hmode : k.context.config.mode with
        | readOnly => rfl
        | readWrite =>
            have hdues : (k.dues D).sessions = 0 := by
              rw [Worker.dues_of_rests (hworker.orderly.unused (by rw [hphase]; trivial)), hphase]
              rfl
            have hclear := hworker.clear
            rw [← hworker.orderly.config, hmode] at hclear
            rw [hclear.mustWait_eq_false hdues]
            rfl
    | sending row => exact haccepts
    | reporting result => exact haccepts
    | ended => exact absurd (by rw [Worker.isDone, hphase]) hnot
    | aborted => exact absurd (by rw [Worker.isDone, hphase]) hnot
    | _ => rfl
  have hi : i ∈ r.ready w := mem_ready_iff.mpr ⟨k, hk, hcan⟩
  rw [hready] at hi
  cases hi

end Run
end OrderedQuery
