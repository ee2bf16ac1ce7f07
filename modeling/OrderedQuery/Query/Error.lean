import OrderedQuery.Cursor.State
import OrderedQuery.Expr.Operation
import OrderedQuery.Index.Error
import OrderedQuery.Store.Transaction

/-!
# Errors of queries

A query fails while its plan is built or while a cursor runs.  Each cause is a constructor;
the `message` functions word them.
-/

namespace OrderedQuery

/-- What makes a plan malformed. -/
inductive PlanFault where
  /-- An expression reads a field its input does not have. -/
  | fieldOutOfRange (field arity : Nat)
  | untypedNull
  | incompatibleOperands (symbol : String) (left right : ValueType)
  | operandNotBool (type : ValueType)
  /-- An expression over fields is evaluated where there is no row. -/
  | noInputRow (field : Nat)
  /-- A row is too short for the expression evaluated on it. -/
  | fieldBeyondRow (field arity : Nat)
  | positionTooLarge (position : Nat)
  | rowOfOtherType (row : Nat)
  | orderingTooLong (length : Nat) (index : String) (columns : Nat)
  | mixedOrdering (index : String)
  | emptyBound
  | boundTooLong (length : Nat) (index : String) (columns : Nat)
  | boundReadsFields
  | boundOfOtherType (column : String) (actual expected : ValueType)
  | boundSplitsCoordinates (length : Nat) (index : String)
  | mixedBoundColumns (index : String)
  | predicateNotBool (type : ValueType)
  | groupTooLong (fields arity : Nat)
  | argumentOutOfRange (function : String) (field arity : Nat)
  | sumOfOtherType (type : ValueType)
  | argumentMissing (function : String)
  | sortFieldOutOfRange (field arity : Nat)
  | noPartitions
  | positionNotRead (position : Nat)
  | zeroPartitions
  | invertedRange (low high : Int)
  | severalWriters (partitions : Nat)
  | writerInsideTransaction
  deriving DecidableEq, Repr

namespace PlanFault

/-- The report of a fault. -/
def message : PlanFault → String
  | fieldOutOfRange field arity =>
      s!"field {field} out of range for a row of arity {arity}"
  | untypedNull => "untyped null literal; use Expression::null with a type"
  | incompatibleOperands symbol left right =>
      s!"cannot apply {symbol} to {left.name} and {right.name}"
  | operandNotBool type => s!"expected a Bool operand, found {type.name}"
  | noInputRow field => s!"field {field} referenced without an input row"
  | fieldBeyondRow field arity => s!"field {field} out of range for arity {arity}"
  | positionTooLarge position => s!"binding position {position} exceeds 255"
  | rowOfOtherType row => s!"values row {row} does not match the declared row type"
  | orderingTooLong length index columns =>
      s!"ordering of {length} columns for index {index} with {columns}"
  | mixedOrdering index => s!"ordering mixes index order and reverse order on index {index}"
  | emptyBound => "an index bound needs at least one value"
  | boundTooLong length index columns =>
      s!"bound of {length} values for index {index} with {columns} columns"
  | boundReadsFields => "index bounds cannot reference row fields"
  | boundOfOtherType column actual expected =>
      s!"bound on column {column} has type {actual.name}, expected {expected.name}"
  | boundSplitsCoordinates length index =>
      s!"bound of {length} values splits the coordinates of spatial index {index}"
  | mixedBoundColumns index =>
      s!"bounded columns of index {index} mix ascending and descending order"
  | predicateNotBool type => s!"select predicate has type {type.name}, not Bool"
  | groupTooLong fields arity =>
      s!"{fields} group fields requested from a row of arity {arity}"
  | argumentOutOfRange function field arity =>
      s!"{function} argument {field} out of range for arity {arity}"
  | sumOfOtherType type => s!"sum over non-numeric type {type.name}"
  | argumentMissing function => s!"{function} requires an argument"
  | sortFieldOutOfRange field arity =>
      s!"sort key field {field} out of range for arity {arity}"
  | noPartitions => "a parallel map needs at least one partition"
  | positionNotRead position => s!"sub-plan never reads binding position {position}"
  | zeroPartitions => "cannot split a key range into zero partitions"
  | invertedRange low high => s!"key range [{low}, {high}) is inverted"
  | severalWriters partitions =>
      s!"read-write parallel map needs a single partition, got {partitions}"
  | writerInsideTransaction =>
      "read-write parallel map cannot run inside an open session transaction"

end PlanFault

/-- Which value did not fit. -/
inductive ValueFault where
  | rowLength (fields values : Nat)
  | fieldOfOtherType (field : Nat) (type : ValueType) (value : Value)
  | valueForRow (position : Nat) (value : Value)
  | rowForValue (position : Nat)
  | noField (position field : Nat)
  | notBool (value : Value)
  | incomparable (left right : Value)
  | inapplicable (op : Arithmetic) (left right : Value)
  | notSummable (value : Value)
  /-- A function that is not built in refused its argument. -/
  | refused (function : String)
  deriving DecidableEq, Repr

namespace ValueFault

/-- The report of a fault. -/
def message : ValueFault → String
  | rowLength fields values => s!"row type has {fields} fields, got {values} values"
  | fieldOfOtherType field type value =>
      s!"field {field} is declared {type.name}, got {value.display}"
  | valueForRow position value =>
      s!"binding {position} holds the value {value.display}, not a row"
  | rowForValue position => s!"binding {position} holds a row, not a value"
  | noField position field => s!"row bound at {position} has no field {field}"
  | notBool value => s!"expected a boolean, found {value.display}"
  | incomparable left right => s!"cannot compare {left.display} with {right.display}"
  | inapplicable op left right =>
      s!"cannot apply {op.symbol} to {left.display} and {right.display}"
  | notSummable value => s!"sum cannot accumulate {value.display}"
  | refused function => function

end ValueFault

/-- Which integer result did not fit in 64 bits. -/
inductive OverflowFault where
  | arithmetic (op : Arithmetic) (left right : Int)
  | sum (left right : Int)
  /-- The result of a function that counts or multiplies. -/
  | within (function : String)
  deriving DecidableEq, Repr

/-- The report of an overflow. -/
def OverflowFault.message : OverflowFault → String
  | arithmetic op left right => s!"{left} {op.symbol} {right}"
  | sum left right => s!"sum: {left} + {right}"
  | within function => function

/-- How a worker of a parallel map came to an end it did not report, or to no start. -/
inductive WorkerFault where
  | unreported
  | aborted
  /-- The system did not start its thread, and reported why. -/
  | unstarted (report : String)
  deriving DecidableEq, Repr

/-- The report of such an end. -/
def WorkerFault.message : WorkerFault → String
  | unreported => "exited without reporting completion"
  | aborted => "worker thread panicked"
  | unstarted report => report

/-- Why a query fails. -/
inductive QueryError where
  | cancelled
  /-- A cursor was asked for something its state does not allow. -/
  | protocol (cursor action : String) (state : CursorState)
  | plan (fault : PlanFault)
  | value (fault : ValueFault)
  | overflow (fault : OverflowFault)
  | divisionByZero
  | unknownFunction (name : String)
  | unbound (position : Nat)
  /-- A sort would have to hold too many rows. -/
  | resourceLimit (limit allowed : Nat)
  | worker (number : Nat) (fault : WorkerFault)
  | store (e : StoreError)
  | index (e : IndexError)
  /-- A function ended the thread that called it. -/
  | aborted
  /-- A loop outlived the bound computed for it, or waited for what cannot happen. -/
  | stalled
  deriving DecidableEq, Repr

namespace QueryError

/-- The report of an error. -/
def message : QueryError → String
  | cancelled => "query execution was cancelled"
  | protocol cursor action state =>
      s!"cursor protocol violation: {cursor} cannot {action} while {state.name}"
  | plan fault => s!"invalid plan: {fault.message}"
  | value fault => s!"type mismatch: {fault.message}"
  | overflow fault => s!"numeric overflow in {fault.message}"
  | divisionByZero => "division by zero"
  | unknownFunction name => s!"unknown aggregate function: {name}"
  | unbound position => s!"no binding at position {position}"
  | resourceLimit limit allowed =>
      s!"resource limit exceeded: sort limit {limit} exceeds max_rows_in_memory {allowed}"
  | worker number fault => s!"partition worker {number} failed: {fault.message}"
  | store e => e.message
  | index e => e.message
  | aborted => "aborted"
  | stalled => "stalled"

/-- The kind of an error, which groups causes. -/
def kind : QueryError → String
  | cancelled => "Cancelled"
  | protocol .. => "ProtocolViolation"
  | plan _ => "Plan"
  | value _ => "TypeMismatch"
  | overflow _ => "Overflow"
  | divisionByZero => "DivisionByZero"
  | unknownFunction _ => "UnknownFunction"
  | unbound _ => "UnboundBinding"
  | resourceLimit .. => "ResourceLimit"
  | worker .. => "WorkerFailed"
  | store e => "Storage." ++ e.kind
  | index e => "Core." ++ e.kind
  | aborted | stalled => "panic"

end QueryError
end OrderedQuery
