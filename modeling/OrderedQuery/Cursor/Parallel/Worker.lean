import OrderedQuery.Cursor.Machine

/-!
# Workers of a parallel map

A worker runs one cursor in a transaction of its own and sends the rows to a reader, then
one message that tells how it ended.  The channel between them holds a limited number of
messages.  A worker that finds it full waits, unless the reader has gone, in which case
nothing can be sent any more and the worker winds up.

A worker is a small program of which `Worker.step` takes one step.  Steps of different
workers can come in any order; `Worker.canStep` tells whose turn it can be.
-/

namespace OrderedQuery

/-- What a worker tells its reader. -/
inductive Message where
  | row (worker : Nat) (r : Row)
  | finished (worker : Nat)
  | failed (worker : Nat) (e : QueryError)

/-- The channel from the workers to their reader. -/
structure Channel where
  capacity : Nat
  /-- Messages on their way, the oldest first. -/
  queue : List Message
  /-- The reader is there. -/
  hasReader : Bool

namespace Channel

/-- A message can be sent without waiting, or need not be sent. -/
def accepts (c : Channel) : Bool :=
  !c.hasReader || decide (c.queue.length < c.capacity)

/-- Sends a message, which is lost if the reader has gone. -/
def send (c : Channel) (message : Message) : Channel :=
  if c.hasReader then { c with queue := c.queue ++ [message] } else c

/-- The reader goes, and what was on its way is lost. -/
def abandon (c : Channel) : Channel :=
  { c with queue := [], hasReader := false }

end Channel

/-- What a worker does next. -/
inductive Phase where
  /-- Begin the transaction. -/
  | begin
  /-- Open the cursor. -/
  | opening
  /-- Ask for a row. -/
  | pulling
  /-- Send a row. -/
  | sending (row : Row)
  /-- Close and destroy the cursor, after the run has ended in a certain way. -/
  | closing (pumped : Except QueryError Unit)
  /-- Commit the transaction, or abandon it. -/
  | ending (result : Except QueryError Unit)
  /-- Tell the reader. -/
  | reporting (result : Except QueryError Unit)
  /-- Nothing. -/
  | ended
  /-- Nothing; the worker's thread was ended from within. -/
  | aborted

/-- A worker: its own context, its cursor and its place in the program. -/
structure Worker (σ : Type) where
  context : Context
  cursor : σ
  phase : Phase

namespace Worker

variable {σ : Type}

/-- A worker before its first step. -/
def start (m : Machine σ) (context : Context) (env : Env) : Worker σ :=
  ⟨context, m.fresh (.ofEnv env), .begin⟩

/-- The worker takes no more steps. -/
def isDone (k : Worker σ) : Bool :=
  match k.phase with
  | .ended | .aborted => true
  | _ => false

/-- The worker's thread was ended from within. -/
def isAborted (k : Worker σ) : Bool :=
  match k.phase with
  | .aborted => true
  | _ => false

/-- The worker need not wait: neither for another writer nor for room in the channel. -/
def canStep (k : Worker σ) (c : Channel) (w : World) : Bool :=
  match k.phase with
  | .begin =>
      !(decide (k.context.config.mode = .readWrite) && w.engine.mustWait k.context.session)
  | .sending _ | .reporting _ => c.accepts
  | .ended | .aborted => false
  | _ => true

/-- The message that reports the end of a worker. -/
def report (number : Nat) : Except QueryError Unit → Message
  | .ok () => .finished number
  | .error e => .failed number e

/-- Where a worker goes after an operation of its cursor has failed.  A thread that is ended
from within lets everything go, and its transaction is abandoned. -/
def stop (m : Machine σ) (k : Worker σ) (cursor : σ) (e : QueryError) (w : World) :
    Worker σ × World :=
  if e = .aborted then
    ({ k with cursor, phase := .aborted }, (m.letGo cursor w).rollback k.context)
  else ({ k with cursor, phase := .closing (.error e) }, w)

/-- Opens the cursor. -/
def openCursor (m : Machine σ) (k : Worker σ) (w : World) : Worker σ × World :=
  let o := m.openTop k.context k.cursor w
  match o.result with
  | .error e => k.stop m o.state e o.world
  | .ok false => ({ k with cursor := o.state, phase := .closing (.ok ()) }, o.world)
  | .ok true => ({ k with cursor := o.state, phase := .pulling }, o.world)

/-- Asks the cursor for a row. -/
def pull (m : Machine σ) (k : Worker σ) (w : World) : Worker σ × World :=
  let o := m.next k.context k.cursor w
  match o.result with
  | .error e => k.stop m o.state e o.world
  | .ok none => ({ k with cursor := o.state, phase := .closing (.ok ()) }, o.world)
  | .ok (some row) =>
      match o.world.check k.context with
      | (.error e, w) => ({ k with cursor := o.state, phase := .closing (.error e) }, w)
      | (.ok (), w) => ({ k with cursor := o.state, phase := .sending row }, w)

/-- Closes and destroys the cursor; the first error of the run and of this counts. -/
def close (m : Machine σ) (k : Worker σ) (pumped : Except QueryError Unit) (w : World) :
    Worker σ × World :=
  let closed := m.closeTop k.context k.cursor w
  let destroyed := m.destroy k.context closed.state closed.world
  let result := firstError pumped (firstError closed.result destroyed.result)
  ({ k with cursor := destroyed.state, phase := .ending result }, destroyed.world)

/-- Commits the transaction of a run that went well, and abandons that of another. -/
def endTransaction (k : Worker σ) (result : Except QueryError Unit) (w : World) :
    Worker σ × World :=
  match result with
  | .ok () =>
      let (committed, w) := w.commitWork k.context
      ({ k with phase := .reporting committed }, w.recordFinished)
  | .error e =>
      ({ k with phase := .reporting (.error e) }, (w.rollback k.context).recordFinished)

/-- Begins the transaction. -/
def beginTransaction (k : Worker σ) (w : World) : Worker σ × World :=
  match w.beginWork k.context with
  | (.ok (), w) => ({ k with phase := .opening }, w)
  | (.error e, w) => ({ k with phase := .reporting (.error e) }, w.recordFinished)

/-- Takes one step of the worker with a given number. -/
def step (m : Machine σ) (number : Nat) (k : Worker σ) (c : Channel) (w : World) :
    Worker σ × Channel × World :=
  match k.phase with
  | .begin =>
      let (k, w) := k.beginTransaction w
      (k, c, w)
  | .opening =>
      let (k, w) := k.openCursor m w
      (k, c, w)
  | .pulling =>
      let (k, w) := k.pull m w
      (k, c, w)
  | .sending row =>
      if c.hasReader then ({ k with phase := .pulling }, c.send (.row number row), w)
      else ({ k with phase := .closing (.error .cancelled) }, c, w)
  | .closing pumped =>
      let (k, w) := k.close m pumped w
      (k, c, w)
  | .ending result =>
      let (k, w) := k.endTransaction result w
      (k, c, w)
  | .reporting result => ({ k with phase := .ended }, c.send (report number result), w)
  | .ended | .aborted => (k, c, w)

/-- At least as many rows as the worker can still send. -/
def pending (m : Machine σ) (k : Worker σ) (w : World) : Nat :=
  match k.phase with
  | .begin | .opening | .pulling => m.pending k.context k.cursor w
  | .sending _ => m.pending k.context k.cursor w + 1
  | _ => 0

/-- At least as many steps as the worker can still take: two for every row, and those of
winding up. -/
def stepsLeft (m : Machine σ) (k : Worker σ) (w : World) : Nat :=
  match k.phase with
  | .begin => 2 * k.pending m w + 6
  | .opening => 2 * k.pending m w + 5
  | .pulling => 2 * k.pending m w + 4
  | .sending _ => 2 * k.pending m w + 3
  | .closing _ => 3
  | .ending _ => 2
  | .reporting _ => 1
  | .ended | .aborted => 0

end Worker
end OrderedQuery
