import OrderedQuery.Query.Error

/-!
# Aggregate functions

An aggregate function folds the values of a group, nulls left out, into one value.  The
state it keeps in between is a list of values.  A value may be refused, and a function that
is built in then stays as it was.
-/

namespace OrderedQuery

/-- A function that folds values into one. -/
structure AggregateFunction where
  name : String
  /-- The type of the result for arguments of a type, `none` standing for no argument. -/
  resultType : Option ValueType → Except QueryError ValueType
  /-- The result for a group without any value. -/
  emptyValue : Value
  /-- The state before the first value. -/
  initial : List Value
  /-- Takes one more value: whether it was accepted, and the state afterwards. -/
  update : List Value → Value → Except QueryError Unit × List Value
  /-- The result for the values taken so far. -/
  finish : List Value → Value

namespace AggregateFunction

/-- Carries a new state over, or keeps the old one when a value is refused. -/
def keepOnError (state : List Value) :
    Except QueryError (List Value) → Except QueryError Unit × List Value
  | .ok state => (.ok (), state)
  | .error e => (.error e, state)

/-- The integer kept in a state. -/
def heldInt (start : Int) : List Value → Int
  | [.int i] => i.toInt
  | _ => start

/-- The value kept in a state, null if there is none. -/
def heldValue : List Value → Value
  | [v] => v
  | _ => .null

/-- An integer state, if the integer fits. -/
def intState (fault : OverflowFault) (n : Int) : Except QueryError (List Value) :=
  match Value.int64? n with
  | some i => .ok [.int i]
  | none => .error (.overflow fault)

/-- The number of values. -/
def count : AggregateFunction where
  name := "count"
  resultType _ := .ok .int
  emptyValue := .int 0
  initial := [.int 0]
  update state _ := keepOnError state (intState (.within "count") (heldInt 0 state + 1))
  finish := heldValue

/-- The next state of a sum. -/
def sumStep (state : List Value) (v : Value) : Except QueryError (List Value) :=
  match state, v with
  | [], .int _ | [], .float _ => .ok [v]
  | [.int a], .int b => intState (.sum a.toInt b.toInt) (a.toInt + b.toInt)
  | [.float a], .float b => .ok [.float (a.add b)]
  | _, _ => .error (.value (.notSummable v))

/-- The sum of numbers of one type. -/
def sum : AggregateFunction where
  name := "sum"
  resultType
    | some type =>
        if type.isNumeric then .ok type else .error (.plan (.sumOfOtherType type))
    | none => .error (.plan (.argumentMissing "sum"))
  emptyValue := .null
  initial := []
  update state v := keepOnError state (sumStep state v)
  finish := heldValue

/-- The next state of a function that keeps the best value; a new value is better if it
compares as `better` with the old one. -/
def bestStep (better : Ordering) (state : List Value) (v : Value) :
    Except QueryError (List Value) :=
  match state with
  | [best] =>
      match v.compare best with
      | some o => .ok (if o = better then [v] else state)
      | none => .error (.value (.incomparable v best))
  | _ => .ok [v]

/-- The first of the best values. -/
def best (name : String) (better : Ordering) : AggregateFunction where
  name := name
  resultType
    | some type => .ok type
    | none => .error (.plan (.argumentMissing name))
  emptyValue := .null
  initial := []
  update state v := keepOnError state (bestStep better state v)
  finish := heldValue

/-- The least value. -/
def min : AggregateFunction := best "min" .lt

/-- The greatest value. -/
def max : AggregateFunction := best "max" .gt

/-- The functions that are there from the start. -/
def builtins : List AggregateFunction := [count, sum, min, max]

/-- The next state of a product. -/
def productStep (state : List Value) : Value → Except QueryError (List Value)
  | .int i => intState (.within "product") (heldInt 1 state * i.toInt)
  | _ => .error (.value (.refused "product"))

/-- The product of integers, under a name of choice. -/
def product (name : String) : AggregateFunction where
  name := name
  resultType _ := .ok .int
  emptyValue := .null
  initial := [.int 1]
  update state v := keepOnError state (productStep state v)
  finish := heldValue

/-- A function that ends the thread that gives it a value. -/
def aborting (name : String) : AggregateFunction where
  name := name
  resultType _ := .ok .int
  emptyValue := .null
  initial := []
  update state _ := (.error .aborted, state)
  finish := heldValue

end AggregateFunction
end OrderedQuery
