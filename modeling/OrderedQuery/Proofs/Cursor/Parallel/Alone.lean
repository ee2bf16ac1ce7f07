import OrderedQuery.Proofs.Cursor.Parallel.Locality

/-!
# Workers on their own

What a worker does in a run is measured by what it can do without the others.  `Worker.Alone`
collects the possible runs of a worker in a world that it shares with nobody: whatever it
sends is received at once, and while it rests, nothing happens that it could notice.  The
schedule and the refusals of the world are not fixed beforehand, so a worker whose plan holds
a parallel map can have several such runs.
-/

namespace OrderedQuery

/-- Nobody has left anything behind, and a context is about to be used. -/
structure World.Deserted (store : Store) (ctx : Context) (w : World) : Prop where
  committed : w.engine.committed = store
  active : w.engine.active = []
  raised : w.signals.raised = []
  silent : w.signals.alarm = none
  session : ctx.session < w.engine.issued
  token : ∀ f ∈ ctx.token.flags, f < w.signals.issued

/-- Meanwhile nothing has happened to the store, its transactions or the flags. -/
structure World.Resumes (w w' : World) : Prop where
  committed : w'.engine.committed = w.engine.committed
  active : w'.engine.active = w.engine.active
  raised : w'.signals.raised = w.signals.raised
  silent : w'.signals.alarm = none
  sessions : w.engine.issued ≤ w'.engine.issued
  flags : w.signals.issued ≤ w'.signals.issued

/-- While nobody else is in a transaction, one begins on the committed store, unless the engine
refuses it. -/
theorem World.beginWork_of_active_eq_nil {w : World} (hactive : w.engine.active = [])
    (ctx : Context) :
    (∃ refusals, w.beginWork ctx = (.ok (),
      { w with
        engine := { w.engine with
          active := [(ctx.session, ⟨ctx.config.mode, w.engine.committed⟩)] }
        refusals })) ∨
      ∃ e w', w.beginWork ctx = (.error (.store e), w') := by
  obtain ⟨⟨committed, active, issued⟩, signals, stats, schedule, refusals, spawns⟩ := w
  obtain rfl : active = [] := hactive
  match refusals with
  | [] => exact .inl ⟨[], rfl⟩
  | false :: refusals => exact .inl ⟨refusals, rfl⟩
  | true :: refusals => exact .inr ⟨.refused, _, rfl⟩

/-- The number of the worker that sends a message. -/
def Message.worker : Message → Nat
  | row i _ | finished i | failed i _ => i

/-- Nothing waits in the channel. -/
def Channel.vacant : Channel := ⟨1, [], true⟩

/-- At least as many steps as a worker can take before it sends something. -/
def Phase.distance : Phase → Nat
  | .begin => 6
  | .opening => 5
  | .pulling => 4
  | .closing _ => 3
  | .ending _ => 2
  | .sending _ | .reporting _ => 1
  | .ended | .aborted => 0

namespace Worker

variable {σ : Type} {m : Machine σ} {i : Nat} {k : Worker σ} {w : World}

/-- A step of a worker, with the messages it sends. -/
def advance (m : Machine σ) (i : Nat) (k : Worker σ) (w : World) :
    Worker σ × List Message × World :=
  let (k, c, w) := k.step m i .vacant w
  (k, c.queue, w)

/-- As long as there is a reader, a worker does not depend on the channel. -/
theorem step_eq_advance {c : Channel} (hc : c.hasReader = true) :
    k.step m i c w =
      ((k.advance m i w).1, { c with queue := c.queue ++ (k.advance m i w).2.1 },
        (k.advance m i w).2.2) := by
  unfold advance step
  cases k.phase with
  | sending row => simp [hc, Channel.send, Channel.vacant]
  | reporting result => simp [hc, Channel.send, Channel.vacant]
  | _ => simp [Channel.vacant]

/-- What a step can be. -/
inductive Moves (i : Nat) (k : Worker σ) (w : World) : Worker σ × List Message × World → Prop
  | sends {row : Row} (h : k.phase = .sending row) :
      Moves i k w ({ k with phase := .pulling }, [.row i row], w)
  | reports {result : Except QueryError Unit} (h : k.phase = .reporting result) :
      Moves i k w ({ k with phase := .ended }, [report i result], w)
  | rests (h : k.isDone = true) : Moves i k w (k, [], w)
  /-- Nothing is sent yet. -/
  | works {k' : Worker σ} {w' : World} (hcontext : k'.context = k.context)
      (hphase : k'.phase ≠ .ended) (hdistance : k'.phase.distance < k.phase.distance)
      (hunsent : 1 < k.phase.distance) :
      Moves i k w (k', [], w')

/-- A worker sends nothing in the name of another one. -/
theorem Moves.worker_eq {x : Worker σ × List Message × World} (h : k.Moves i w x) :
    ∀ message ∈ x.2.1, message.worker = i := by
  intro message hmem
  cases h with
  | sends hphase =>
      rw [List.mem_singleton.mp hmem]
      rfl
  | @reports result hphase =>
      rw [List.mem_singleton.mp hmem]
      cases result with
      | ok u => rfl
      | error e => rfl
  | rests hdone => cases hmem
  | works hcontext hphase hdistance hunsent => cases hmem

/-- A worker that stops comes closer to its end. -/
theorem stop_moves (hk : 3 < k.phase.distance) (cursor : σ) (e : QueryError) (w' : World) :
    k.Moves i w ((k.stop m cursor e w').1, [], (k.stop m cursor e w').2) := by
  unfold stop
  split
  · exact .works rfl nofun (Nat.zero_lt_of_lt hk) (by omega)
  · exact .works rfl nofun hk (by omega)

theorem advance_moves (m : Machine σ) (i : Nat) (k : Worker σ) (w : World) :
    k.Moves i w (k.advance m i w) := by
  obtain ⟨context, cursor, phase⟩ := k
  unfold advance step
  cases phase with
  | begin =>
      dsimp only [beginTransaction]
      rcases w.beginWork context with ⟨e | u, w'⟩
      · exact .works rfl nofun (by simp [Phase.distance]) (by simp [Phase.distance])
      · exact .works rfl nofun (by simp [Phase.distance]) (by simp [Phase.distance])
  | opening =>
      dsimp only [openCursor]
      generalize m.openTop context cursor w = o
      obtain ⟨e | _ | _, cursor', w'⟩ := o
      · exact stop_moves (show 3 < Phase.distance .opening by decide) cursor' e w'
      · exact .works rfl nofun (by simp [Phase.distance]) (by simp [Phase.distance])
      · exact .works rfl nofun (by simp [Phase.distance]) (by simp [Phase.distance])
  | pulling =>
      dsimp only [pull]
      generalize m.next context cursor w = o
      obtain ⟨e | _ | row, cursor', w'⟩ := o
      · exact stop_moves (show 3 < Phase.distance .pulling by decide) cursor' e w'
      · exact .works rfl nofun (by simp [Phase.distance]) (by simp [Phase.distance])
      · dsimp only
        rcases w'.check context with ⟨e | u, w''⟩
        · exact .works rfl nofun (by simp [Phase.distance]) (by simp [Phase.distance])
        · exact .works rfl nofun (by simp [Phase.distance]) (by simp [Phase.distance])
  | sending row => exact .sends rfl
  | closing pumped => exact .works rfl nofun (by simp [Phase.distance]) (by simp [Phase.distance])
  | ending result =>
      cases result with
      | error e => exact .works rfl nofun (by simp [Phase.distance]) (by simp [Phase.distance])
      | ok u =>
          dsimp only [endTransaction]
          rcases w.commitWork context with ⟨committed, w'⟩
          exact .works rfl nofun (by simp [Phase.distance]) (by simp [Phase.distance])
  | reporting result => exact .reports rfl
  | ended => exact .rests rfl
  | aborted => exact .rests rfl

/-- A step concerns nobody but the party of the worker. -/
theorem advance_within {Owns : Ownership σ} {h : Holdings} (hm : m.Local Owns) (hf : h.Fits w)
    (hk : k.Owned Owns (h.upto w)) :
    Within h w (fun x => x.1.Owned Owns (h.upto x.2.2)) (k.advance m i w)
      (k.advance m i (w.only h)) := by
  obtain ⟨honly, hkeeps, howned⟩ := step_within hm hf hk i .vacant
  simp only [advance, honly]
  exact ⟨rfl, hkeeps, howned⟩

/-- What a worker with the given context and environment can have sent on its own, and where
it then stands. -/
inductive Alone (m : Machine σ) (store : Store) (i : Nat) (context : Context) (env : Env) :
    Worker σ → List Message → World → Prop
  | start {w : World} (hw : w.Deserted store context) :
      Alone m store i context env (.start m context env) [] w
  | wait {k : Worker σ} {sent : List Message} {w w' : World}
      (h : Alone m store i context env k sent w) (hw : w.Resumes w') :
      Alone m store i context env k sent w'
  | step {k : Worker σ} {sent : List Message} {w : World}
      (h : Alone m store i context env k sent w) :
      Alone m store i context env (k.advance m i w).1 (sent ++ (k.advance m i w).2.1)
        (k.advance m i w).2.2

namespace Alone

variable {store : Store} {context : Context} {env : Env} {sent : List Message}

theorem context_eq (h : Alone m store i context env k sent w) : k.context = context := by
  induction h with
  | start hw => rfl
  | wait h hw ih => exact ih
  | @step k sent w h ih =>
      have hmoves := advance_moves m i k w
      generalize k.advance m i w = x at hmoves
      cases hmoves with
      | sends hphase => exact ih
      | reports hphase => exact ih
      | rests hdone => exact ih
      | works hcontext hphase hdistance hunsent => exact hcontext.trans ih

/-- A worker sends rows, and at its end one report. -/
theorem sent_eq (h : Alone m store i context env k sent w) :
    ∃ rows : List Row, (k.phase ≠ .ended ∧ sent = rows.map (.row i)) ∨
      (k.phase = .ended ∧ ∃ result, sent = rows.map (.row i) ++ [report i result]) := by
  induction h with
  | start hw => exact ⟨[], .inl ⟨nofun, rfl⟩⟩
  | wait h hw ih => exact ih
  | @step k sent w h ih =>
      obtain ⟨rows, hsent⟩ := ih
      have hmoves := advance_moves m i k w
      generalize k.advance m i w = x at hmoves
      cases hmoves with
      | @sends row hphase =>
          rcases hsent with ⟨-, rfl⟩ | ⟨hended, -⟩
          · exact ⟨rows ++ [row], .inl ⟨nofun, by simp⟩⟩
          · rw [hended] at hphase
            cases hphase
      | @reports result hphase =>
          rcases hsent with ⟨-, rfl⟩ | ⟨hended, -⟩
          · exact ⟨rows, .inr ⟨rfl, result, rfl⟩⟩
          · rw [hended] at hphase
            cases hphase
      | rests hdone => exact ⟨rows, by simpa using hsent⟩
      | works hcontext hphase hdistance hunsent =>
          rcases hsent with ⟨-, rfl⟩ | ⟨hended, -⟩
          · exact ⟨rows, .inl ⟨hphase, List.append_nil _⟩⟩
          · rw [hended] at hunsent
            cases hunsent

/-- Before its transaction has begun, a worker has left nothing behind. -/
theorem active_of_begin (h : Alone m store i context env k sent w)
    (hbegin : k.phase = .begin) : w.engine.active = [] := by
  induction h with
  | start hw => exact hw.active
  | wait h hw ih => exact hw.active.trans (ih hbegin)
  | @step k sent w h ih =>
      have hmoves := advance_moves m i k w
      generalize k.advance m i w = x at hmoves hbegin
      cases hmoves with
      | sends hphase => cases hbegin
      | reports hphase => cases hbegin
      | rests hdone => exact ih hbegin
      | works hcontext hphase hdistance hunsent =>
          have hmost : k.phase.distance ≤ 6 := by
            cases k.phase <;> simp [Phase.distance]
          dsimp only at hbegin
          rw [hbegin] at hdistance
          exact absurd (Nat.lt_of_lt_of_le hdistance hmost) (Nat.lt_irrefl 6)

end Alone
end Worker

namespace Machine

variable {σ : Type}

/-- Worker `i` on its own, in a context that has the given settings and is not cancelled, can
have sent `sent` and come to be `k`. -/
def Sends (m : Machine σ) (config : Config) (store : Store) (env : Env) (i : Nat)
    (k : Worker σ) (sent : List Message) : Prop :=
  ∃ (context : Context) (w : World), context.config = config ∧
    w.signals.isCancelled context.token = false ∧
    Worker.Alone m store i context env k sent w

/-- A cursor that a worker on its own runs in an environment can yield some rows before
everything else. -/
def MayYield (m : Machine σ) (config : Config) (store : Store) (env : Env)
    (rows : List Row) : Prop :=
  ∃ (i : Nat) (k : Worker σ) (more : List Message),
    m.Sends config store env i k (rows.map (.row i) ++ more)

/-- A cursor that a worker on its own runs in an environment can yield some rows and no more,
and the worker then ends with a result. -/
def Yields (m : Machine σ) (config : Config) (store : Store) (env : Env) (rows : List Row)
    (result : Except QueryError Unit) : Prop :=
  ∃ (i : Nat) (k : Worker σ),
    m.Sends config store env i k (rows.map (.row i) ++ [Worker.report i result])

/-- A cursor that a worker on its own runs in an environment can yield some rows and then end
the worker from within. -/
def Panics (m : Machine σ) (config : Config) (store : Store) (env : Env)
    (rows : List Row) : Prop :=
  ∃ (i : Nat) (k : Worker σ), k.phase = .aborted ∧
    m.Sends config store env i k (rows.map (.row i))

end Machine
end OrderedQuery
