import OrderedQuery.Query.Error
import OrderedQuery.Query.Signals
import OrderedQuery.Store.Engine

/-!
# What a query runs in

A context belongs to one thread: its configuration, its session and its cancellation token.
The world is what all threads share: the engine, the flags of cancellation and the
statistics.  The world also holds the three things that a run does not decide itself: in which
order the steps of different threads are taken, which transactions the engine refuses to begin
or to commit, and which threads the system does not start.
-/

namespace OrderedQuery

/-- The settings of a query. -/
structure Config where
  /-- Entries fetched from the store at a time. -/
  scanBatchSize : Nat := 256
  /-- Messages that wait between the workers of a parallel map and its reader. -/
  channelCapacity : Nat := 64
  /-- Milliseconds between two looks of a waiting reader at its token. -/
  pollMillis : Nat := 10
  /-- Rows an operator may hold; `0` means any number. -/
  maxRowsInMemory : Nat := 1000000
  /-- How workers begin their transactions. -/
  mode : Mode := .readOnly
  deriving DecidableEq, Repr

/-- What has been counted since the start of a query. -/
structure Stats where
  /-- Index entries read by scans. -/
  rowsRead : Nat := 0
  /-- Rows handed to the caller of a query. -/
  rowsProduced : Nat := 0
  workersStarted : Nat := 0
  workersFinished : Nat := 0
  deriving DecidableEq, Repr

/-- What one thread of a query works with. -/
structure Context where
  config : Config
  session : SessionId
  token : Token

/-- What the threads of a query share. -/
structure World where
  engine : Engine
  signals : Signals
  stats : Stats
  /-- Choices between steps of threads that are still to be used up; after them, every
  choice is `0`. -/
  schedule : List Nat
  /-- For the next transactions that workers begin or commit, whether the engine refuses;
  after them it does not. -/
  refusals : List Bool
  /-- For the next threads of workers, what the system reports if it does not start them; after
  them it starts every thread. -/
  spawns : List (Option String)

namespace World

/-- A world over an engine, with nothing counted and nothing cancelled. -/
def ofEngine (e : Engine) : World := ⟨e, .none, {}, [], [], []⟩

/-- A context with a session and a token of its own. -/
def newContext (w : World) (config : Config) : Context × World :=
  let (session, engine) := w.engine.derive
  let (token, signals) := w.signals.newRoot
  (⟨config, session, token⟩, { w with engine, signals })

/-- Looks whether the context has been cancelled. -/
def check (w : World) (ctx : Context) : Except QueryError Unit × World :=
  let signals := w.signals.tick
  (if signals.isCancelled ctx.token then .error .cancelled else .ok (), { w with signals })

/-- Cancels a context and all that derive from its token. -/
def cancel (w : World) (ctx : Context) : World :=
  { w with signals := w.signals.cancel ctx.token }

/-- A context with a session of its own and the given token; a cancelled context derives
none. -/
def deriveContext (w : World) (ctx : Context) (token : Token) :
    Except QueryError Context × World :=
  match w.check ctx with
  | (.error e, w) => (.error e, w)
  | (.ok (), w) =>
      let (session, engine) := w.engine.derive
      (.ok ⟨ctx.config, session, token⟩, { w with engine })

/-- Starts the next thread, unless the system reports that it does not. -/
def spawn (w : World) : Option String × World :=
  match w.spawns with
  | [] => (none, w)
  | report :: spawns => (report, { w with spawns })

/-- Derives the context of the worker with a given number and starts its thread. -/
def hire (w : World) (ctx : Context) (token : Token) (number : Nat) :
    Except QueryError Context × World :=
  match w.deriveContext ctx token with
  | (.error e, w) => (.error e, w)
  | (.ok context, w) =>
      match w.spawn with
      | (some report, w) => (.error (.worker number (.unstarted report)), w)
      | (none, w) => (.ok context, w)

/-- Counts rows read. -/
def recordRead (w : World) (n : Nat) : World :=
  { w with stats := { w.stats with rowsRead := w.stats.rowsRead + n } }

/-- Counts rows handed to the caller. -/
def recordProduced (w : World) (n : Nat) : World :=
  { w with stats := { w.stats with rowsProduced := w.stats.rowsProduced + n } }

/-- Counts a worker that has been started. -/
def recordStarted (w : World) : World :=
  { w with stats := { w.stats with workersStarted := w.stats.workersStarted + 1 } }

/-- Counts a worker that has come to its end. -/
def recordFinished (w : World) : World :=
  { w with stats := { w.stats with workersFinished := w.stats.workersFinished + 1 } }

/-- The next choice between steps of threads. -/
def draw (w : World) : Nat × World :=
  match w.schedule with
  | [] => (0, w)
  | choice :: schedule => (choice, { w with schedule })

/-- Whether the engine refuses the next transaction of a worker. -/
def refuses (w : World) : Bool × World :=
  match w.refusals with
  | [] => (false, w)
  | refused :: refusals => (refused, { w with refusals })

/-- Begins the transaction of a worker. -/
def beginWork (w : World) (ctx : Context) : Except QueryError Unit × World :=
  let (refused, w) := w.refuses
  if refused then (.error (.store .refused), w)
  else
    match w.engine.begin ctx.session ctx.config.mode with
    | .ok engine => (.ok (), { w with engine })
    | .error e => (.error (.store e), w)

/-- Commits the transaction of a worker; one that cannot be committed is lost. -/
def commitWork (w : World) (ctx : Context) : Except QueryError Unit × World :=
  let (refused, w) := w.refuses
  if refused then
    (.error (.store .refused), { w with engine := w.engine.rollback ctx.session })
  else
    match w.engine.commit ctx.session with
    | .ok engine => (.ok (), { w with engine })
    | .error e => (.error (.store e), w)

/-- Abandons the transaction of a context. -/
def rollback (w : World) (ctx : Context) : World :=
  { w with engine := w.engine.rollback ctx.session }

end World
end OrderedQuery
