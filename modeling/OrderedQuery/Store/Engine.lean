import OrderedQuery.Store.Transaction

/-!
# Sessions over one store

An engine holds the committed store and the open transactions.  Each transaction belongs to
a session, and a session has at most one.  A session inside a transaction reads what that
transaction sees; outside of one it reads the committed store, and each of its writes is
committed at once.

There is one writer at a time.  `Engine.mustWait` tells when an operation that writes would
have to wait for another session; such an operation is not to be carried out.
-/

namespace OrderedQuery

/-- The number of a session. -/
abbrev SessionId := Nat

/-- The committed store and the open transactions, one per session at most. -/
structure Engine where
  committed : Store
  active : List (SessionId × Transaction)
  /-- Sessions handed out so far. -/
  issued : Nat
  deriving Inhabited

namespace Engine

/-- An engine over an empty store, without sessions. -/
def empty : Engine := ⟨.empty, [], 0⟩

/-- The transaction of a session. -/
def transaction? (e : Engine) (s : SessionId) : Option Transaction :=
  e.active.lookup s

/-- The session is inside a transaction. -/
def inTransaction (e : Engine) (s : SessionId) : Bool :=
  (e.transaction? s).isSome

/-- Some session holds a transaction that writes. -/
def hasWriter (e : Engine) : Bool :=
  e.active.any fun (_, t) => decide (t.mode = .readWrite)

/-- A write, or the begin of one, by a session outside a transaction waits while another
session writes. -/
def mustWait (e : Engine) (s : SessionId) : Bool :=
  !e.inTransaction s && e.hasWriter

/-- Adds a session that has no transaction. -/
def derive (e : Engine) : SessionId × Engine :=
  (e.issued, { e with issued := e.issued + 1 })

/-- Forgets the transaction of a session. -/
def release (e : Engine) (s : SessionId) : Engine :=
  { e with active := e.active.filter fun (s', _) => s' != s }

/-- Replaces the transaction of a session. -/
def assign (e : Engine) (s : SessionId) (t : Transaction) : Engine :=
  { e with active := e.active.map fun (s', t') => if s' = s then (s', t) else (s', t') }

/-- Begins the transaction of a session. -/
def begin (e : Engine) (s : SessionId) (mode : Mode) : Except StoreError Engine :=
  if e.inTransaction s then .error .alreadyActive
  else .ok { e with active := e.active ++ [(s, ⟨mode, e.committed⟩)] }

/-- Commits the transaction of a session. -/
def commit (e : Engine) (s : SessionId) : Except StoreError Engine :=
  match e.transaction? s with
  | none => .error .notActive
  | some t =>
      let e := e.release s
      match t.mode with
      | .readOnly => .ok e
      | .readWrite => .ok { e with committed := t.store }

/-- Abandons the transaction of a session, if it has one. -/
def rollback (e : Engine) (s : SessionId) : Engine :=
  e.release s

/-- Abandons every open transaction. -/
def rollbackAll (e : Engine) : Engine :=
  { e with active := [] }

/-- What a session reads. -/
def view (e : Engine) (s : SessionId) : Store :=
  ((e.transaction? s).map Transaction.store).getD e.committed

/-- Entries of a table as a session reads them; see `Store.scan`. -/
def scan (e : Engine) (s : SessionId) (table : String) (range : KeyRange)
    (resume : Option Bytes) (direction : Direction) (limit : Nat) : List Entry :=
  (e.view s).scan table range resume direction limit

/-- Writes an entry. -/
def put (e : Engine) (s : SessionId) (table : String) (key value : Bytes) :
    Except StoreError Engine :=
  match e.transaction? s with
  | some t => (t.put table key value).map (e.assign s)
  | none =>
      .ok { e with committed := e.committed.insert (Layout.storedKey table key) value }

end Engine
end OrderedQuery
