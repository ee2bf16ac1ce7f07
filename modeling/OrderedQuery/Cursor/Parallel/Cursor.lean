import OrderedQuery.Cursor.Parallel.Run
import OrderedQuery.Plan.Partitions

/-!
# Cursors of a parallel map

Opening starts one worker per partition.  Each works in a fork of the current environment in
which its partition is bound, with a session and a transaction of its own.  Rows are handed
out in the order they arrive; only the rows of one worker keep their order.

The first error ends the run, after every worker has come to its end.  Writers would wait
for each other, so a run whose workers write has one partition and needs the session to be
outside of a transaction.
-/

namespace OrderedQuery
namespace ParallelCursor

variable {σ : Type}

/-- The state of a cursor, with the open run if there is one. -/
abbrev State (σ : Type) := Leaf (Option (Run σ))

/-- Refuses runs in which writers would have to wait. -/
def checkMode (p : Partitioning) (ctx : Context) (w : World) : Except QueryError Unit :=
  match ctx.config.mode with
  | .readOnly => .ok ()
  | .readWrite =>
      if 1 < p.partitions.length then
        .error (.plan (.severalWriters p.partitions.length))
      else if w.engine.inTransaction ctx.session then
        .error (.plan .writerInsideTransaction)
      else .ok ()

/-- Ends a run of which a worker could not be started.  Those that are at work are told to stop,
and what they leave behind comes before the error. -/
def giveUp (m : Machine σ) (r : Run σ) (e : QueryError) (w : World) : QueryError × World :=
  let (r, w) := r.interleave m w
  let (r, w) := r.shutdown m w
  match r.verdict with
  | .error first => (first, w)
  | .ok () => (e, w)

/-- Starts a worker for every partition, while those that have been started are at work. -/
def startWorkers (m : Machine σ) (ctx : Context) (env : Env) (position : Nat) :
    List Binding → Run σ → World → Except QueryError (Run σ) × World
  | [], r, w => (.ok r, w)
  | b :: rest, r, w =>
      match w.hire ctx r.token r.workers.length with
      | (.error e, w) =>
          let (e, w) := giveUp m r e w
          (.error e, w)
      | (.ok context, w) =>
          let worker := Worker.start m context (env.fork.set position b)
          let r := { r with workers := r.workers ++ [worker] }
          let (r, w) := r.interleave m w.recordStarted
          startWorkers m ctx env position rest r w

/-- Starts a run. -/
def startRun (m : Machine σ) (p : Partitioning) (ctx : Context) (base : CursorBase)
    (w : World) : Except QueryError (Run σ) × World :=
  match checkMode p ctx w with
  | .error e => (.error e, w)
  | .ok () =>
      match base.currentEnv with
      | .error e => (.error e, w)
      | .ok env =>
          let (token, signals) := w.signals.newChild ctx.token
          let r := Run.start token ctx.config.channelCapacity p.partitions.length
          startWorkers m ctx env p.position p.partitions r { w with signals }

/-- Starts the workers. -/
def openRun (m : Machine σ) (p : Partitioning) : Action (State σ) Unit := fun ctx s w =>
  match s.base.beginOpen with
  | .error e => ⟨.error e, s, w⟩
  | .ok base =>
      match startRun m p ctx base w with
      | (.error e, w) => ⟨.error e, { s with base := base.finish }, w⟩
      | (.ok run, w) => ⟨.ok (), { s with base, run := some run }, w⟩

/-- Ends the run with an error, whatever else went wrong in it. -/
def fail (m : Machine σ) (s : State σ) (e : QueryError) (w : World) :
    Outcome (State σ) (Option Row) :=
  match s.run with
  | none => ⟨.error e, s, w⟩
  | some r =>
      let (_, w) := r.shutdown m w
      ⟨.error e, { s with run := none }, w⟩

/-- Ends a run whose workers have all reported their end. -/
def complete (m : Machine σ) (s : State σ) (r : Run σ) (w : World) :
    Outcome (State σ) (Option Row) :=
  let (r, w) := r.shutdown m w
  match r.verdict with
  | .error e => ⟨.error e, { s with run := none }, w⟩
  | .ok () => ⟨.ok none, { s with base := s.base.finish, run := none }, w⟩

/-- Receives messages, `fuel` at most, until there is a row or the run ends. -/
def receive (m : Machine σ) (ctx : Context) :
    Nat → State σ → World → Outcome (State σ) (Option Row)
  | 0, s, w => ⟨.error .stalled, s, w⟩
  | fuel + 1, s, w =>
      match w.check ctx with
      | (.error e, w) => fail m s e w
      | (.ok (), w) =>
          match s.run with
          | none => ⟨.ok none, { s with base := s.base.finish }, w⟩
          | some r =>
              if r.live = 0 then complete m s r w
              else
                match r.await m w with
                | (.message (.row _ row), r, w) =>
                    let (r, w) := r.interleave m w
                    ⟨.ok (some row), { s with base := s.base.hand (some row), run := some r },
                      w⟩
                | (.message (.finished i), r, w) =>
                    receive m ctx fuel { s with run := some (r.note i) } w
                | (.message (.failed i e), r, w) =>
                    fail m { s with run := some (r.note i) } e w
                | (.timeout, r, w) => receive m ctx fuel { s with run := some r } w
                | (.disconnected, r, w) =>
                    fail m { s with run := some r } (.worker r.firstSilent .unreported) w
                | (.stalled, r, w) => ⟨.error .stalled, { s with run := some r }, w⟩

/-- The number of messages and timeouts there can be before a row or the end of the run. -/
def patience (s : State σ) (w : World) : Nat :=
  w.schedule.length + (s.run.map Run.live).getD 0 + 1

/-- Hands out the next row that arrives. -/
def next (m : Machine σ) : Action (State σ) (Option Row) := fun ctx s w =>
  match s.base.checkNext with
  | .error e => ⟨.error e, s, w⟩
  | .ok () => receive m ctx (patience s w) s w

/-- Ends the run. -/
def closeRun (m : Machine σ) : Action (State σ) Unit := fun _ s w =>
  match s.base.beginClose with
  | .error e => ⟨.error e, s, w⟩
  | .ok base =>
      match s.run with
      | none => ⟨.ok (), { s with base }, w⟩
      | some r =>
          let (r, w) := r.shutdown m w
          ⟨r.verdict, { s with base, run := none }, w⟩

/-- The rows of the open run, or those that every partition can return. -/
def pending (m : Machine σ) (p : Partitioning) (ctx : Context) (s : State σ) (w : World) :
    Nat :=
  match s.base.state with
  | .active => (s.run.map fun r => r.pending m w).getD 0
  | _ =>
      let context := { ctx with session := w.engine.issued }
      p.partitions.length * m.pending context (m.fresh (.ofEnv .root)) w

/-- Ends the run of a cursor that is let go. -/
def letGo (m : Machine σ) (s : State σ) (w : World) : World :=
  match s.run with
  | none => w
  | some r => (r.shutdown m w).2

/-- The cursor of a parallel map. -/
def machine (m : Machine σ) (p : Partitioning) : Machine (State σ) where
  base s := s.base
  fresh source := ⟨.start "MapParallel", source, none⟩
  pending := pending m p
  openRun := openRun m p
  next := next m
  closeRun := closeRun m
  destroy := Leaf.destroy (closeRun m)
  openBindings := Leaf.openBindings
  nextBindings := Leaf.nextBindings
  closeBindings := Leaf.closeBindings
  letGo := letGo m

end ParallelCursor
end OrderedQuery
