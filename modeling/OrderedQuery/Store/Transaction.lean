import OrderedQuery.Store.Basic

/-!
# Transactions

A transaction works on the store as it was when the transaction began.  Writes stay inside
it until it is committed, and a read-only transaction refuses them.
-/

namespace OrderedQuery

/-- What a transaction may do. -/
inductive Mode where
  | readOnly
  | readWrite
  deriving DecidableEq, Repr

/-- Why the store refuses an operation. -/
inductive StoreError where
  | alreadyActive
  | notActive
  | readOnly
  /-- The engine could not begin or commit a transaction. -/
  | refused
  deriving DecidableEq, Repr

/-- The report of an error. -/
def StoreError.message : StoreError → String
  | alreadyActive => "transaction error: a transaction is already active"
  | notActive => "transaction error: no active transaction"
  | readOnly => "transaction is read-only"
  | refused => "transaction error: refused"

/-- The kind of an error, which groups causes. -/
def StoreError.kind : StoreError → String
  | alreadyActive | notActive | refused => "Transaction"
  | readOnly => "ReadOnly"

/-- A transaction: its mode and the store it sees. -/
structure Transaction where
  mode : Mode
  store : Store

namespace Transaction

/-- The transaction refuses writes. -/
def isReadOnly (t : Transaction) : Bool :=
  decide (t.mode = .readOnly)

/-- The value of a key. -/
def get? (t : Transaction) (table : String) (key : Bytes) : Option Bytes :=
  t.store.get? (Layout.storedKey table key)

/-- Sets the value of a key. -/
def put (t : Transaction) (table : String) (key value : Bytes) :
    Except StoreError Transaction :=
  match t.mode with
  | .readOnly => .error .readOnly
  | .readWrite => .ok { t with store := t.store.insert (Layout.storedKey table key) value }

/-- Removes a key, and tells whether it was there. -/
def delete (t : Transaction) (table : String) (key : Bytes) :
    Except StoreError (Bool × Transaction) :=
  match t.mode with
  | .readOnly => .error .readOnly
  | .readWrite =>
      .ok ((t.get? table key).isSome,
        { t with store := t.store.erase (Layout.storedKey table key) })

/-- Entries of a table; see `Store.scan`. -/
def scan (t : Transaction) (table : String) (range : KeyRange) (resume : Option Bytes)
    (direction : Direction) (limit : Nat) : List Entry :=
  t.store.scan table range resume direction limit

end Transaction
end OrderedQuery
