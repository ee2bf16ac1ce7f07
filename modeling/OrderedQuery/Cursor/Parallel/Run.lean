import OrderedQuery.Cursor.Parallel.Worker

/-!
# Runs of a parallel map

A run is a group of workers, their channel and a cancellation token for all of them.  Which
worker takes the next step is a choice of the schedule that the world holds, so a statement
about all schedules is one about all orders of steps.

The reader of a run waits for messages with `Run.await`.  It ends a run with
`Run.shutdown`, which cancels the workers, gives up the channel and lets every worker come
to its end.
-/

namespace OrderedQuery

/-- An open run. -/
structure Run (σ : Type) where
  token : Token
  channel : Channel
  workers : List (Worker σ)
  /-- The workers whose end has been reported. -/
  reported : List Nat
  /-- The number of workers whose end has not been reported. -/
  live : Nat

/-- What a reader gets by waiting. -/
inductive Receipt where
  | message (m : Message)
  /-- All workers have gone and nothing is on its way. -/
  | disconnected
  /-- The time of waiting is over. -/
  | timeout
  /-- No step is possible. -/
  | stalled

namespace Run

open scoped CoreInstances

variable {σ : Type}

/-- A run without workers, in which `count` of them are expected. -/
def start (token : Token) (capacity count : Nat) : Run σ :=
  ⟨token, ⟨max capacity 1, [], true⟩, [], [], count⟩

/-- The numbers of the workers that need not wait. -/
def ready (r : Run σ) (w : World) : List Nat :=
  (r.workers.zipIdx.filter fun (k, _) => k.canStep r.channel w).map Prod.snd

/-- Every worker has come to its end. -/
def allDone (r : Run σ) : Bool :=
  r.workers.all Worker.isDone

/-- Takes a step of worker `i`. -/
def stepWorker (m : Machine σ) (i : Nat) (r : Run σ) (w : World) : Run σ × World :=
  match r.workers[i]? with
  | none => (r, w)
  | some k =>
      let (k, channel, w) := k.step m i r.channel w
      ({ r with workers := r.workers.set i k, channel }, w)

/-- At least as many steps as the workers can still take. -/
def stepsLeft (m : Machine σ) (r : Run σ) (w : World) : Nat :=
  (r.workers.map fun k => k.stepsLeft m w).sum

/-- Lets workers take steps as long as the schedule chooses one, `fuel` steps at most. -/
def mingle (m : Machine σ) : Nat → Run σ → World → Run σ × World
  | 0, r, w => (r, w)
  | fuel + 1, r, w =>
      match w.draw with
      | (0, w) => (r, w)
      | (choice + 1, w) =>
          match (r.ready w)[choice]? with
          | none => (r, w)
          | some i =>
              let (r, w) := r.stepWorker m i w
              mingle m fuel r w

/-- Lets workers take the steps that the schedule chooses before the reader goes on. -/
def interleave (m : Machine σ) (r : Run σ) (w : World) : Run σ × World :=
  r.mingle m w.schedule.length w

/-- Waits for a message, while the workers take `fuel` steps at most.  The choice `0` stands
for the reader, whose turn it is as soon as there is something to receive. -/
def awaitWith (m : Machine σ) : Nat → Run σ → World → Receipt × Run σ × World
  | 0, r, w => (.stalled, r, w)
  | fuel + 1, r, w =>
      match w.draw with
      | (0, w) =>
          match r.channel.queue with
          | message :: queue =>
              (.message message, { r with channel := { r.channel with queue } }, w)
          | [] =>
              if r.allDone then (.disconnected, r, w)
              else
                match r.ready w with
                | [] => (.stalled, r, w)
                | i :: _ =>
                    let (r, w) := r.stepWorker m i w
                    awaitWith m fuel r w
      | (choice + 1, w) =>
          match (r.ready w)[choice]? with
          | none => (.timeout, r, w)
          | some i =>
              let (r, w) := r.stepWorker m i w
              awaitWith m fuel r w

/-- Waits for a message. -/
def await (m : Machine σ) (r : Run σ) (w : World) : Receipt × Run σ × World :=
  r.awaitWith m (w.schedule.length + r.stepsLeft m w + 1) w

/-- Lets the workers come to their ends, in the order the schedule chooses, by `fuel` steps
at most. -/
def settle (m : Machine σ) : Nat → Run σ → World → Run σ × World
  | 0, r, w => (r, w)
  | fuel + 1, r, w =>
      match r.ready w with
      | [] => (r, w)
      | i :: others =>
          let (choice, w) := w.draw
          let chosen := ((i :: others)[choice % (others.length + 1)]?).getD i
          let (r, w) := r.stepWorker m chosen w
          settle m fuel r w

/-- Cancels the workers, gives up the channel and waits for the end of every worker. -/
def shutdown (m : Machine σ) (r : Run σ) (w : World) : Run σ × World :=
  let w := { w with signals := w.signals.cancel r.token }
  let r := { r with channel := r.channel.abandon }
  r.settle m (r.stepsLeft m w) w

/-- Whether all workers came to a proper end; otherwise the first that did not. -/
def verdict (r : Run σ) : Except QueryError Unit :=
  if r.allDone then
    match r.workers.findIdx? Worker.isAborted with
    | some i => .error (.worker i .aborted)
    | none => .ok ()
  else .error .stalled

/-- The first worker whose end has not been reported. -/
def firstSilent (r : Run σ) : Nat :=
  ((List.range r.workers.length).find? fun i => decide (i ∉ r.reported)).getD 0

/-- Notes the report of a worker. -/
def note (r : Run σ) (worker : Nat) : Run σ :=
  { r with reported := worker :: r.reported, live := r.live - 1 }

/-- At least as many rows as can still be received. -/
def pending (m : Machine σ) (r : Run σ) (w : World) : Nat :=
  r.channel.queue.length + (r.workers.map fun k => k.pending m w).sum

end Run
end OrderedQuery
