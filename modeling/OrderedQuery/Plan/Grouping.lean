import OrderedQuery.Aggregate.Registry
import OrderedQuery.Row.Basic

/-!
# Groupings

A grouping folds neighbouring rows with the same leading fields into one row: those fields,
and the result of each call of an aggregate function.  Rows of a group have to be next to
each other.
-/

namespace OrderedQuery

/-- A call of an aggregate function on a field, or on whole rows. -/
structure AggregateCall where
  /-- The name as it was given. -/
  name : String
  argument : Option Nat
  function : AggregateFunction

/-- The leading fields that make a group, and the calls. -/
structure Grouping where
  fields : Nat
  calls : List AggregateCall
  rowType : RowType

/-- The state of one call during a group. -/
structure Slot where
  state : List Value
  /-- The function has taken a value. -/
  seen : Bool
  deriving DecidableEq, Repr

namespace Grouping

/-- Looks the functions of calls up, and computes the types of their results. -/
def resolve (registry : Registry) (input : RowType) :
    List (String × Option Nat) → Except QueryError (List (AggregateCall × ValueType))
  | [] => .ok []
  | (name, argument) :: rest => do
      let function ← registry.get name
      let type ←
        match argument with
        | none => .ok none
        | some i =>
            match input.field? i with
            | some type => .ok (some type)
            | none => .error (.plan (.argumentOutOfRange name i input.arity))
      let result ← function.resultType type
      let calls ← resolve registry input rest
      .ok ((⟨name, argument, function⟩, result) :: calls)

/-- The grouping of rows of type `input` by their first `fields` fields. -/
def build (registry : Registry) (input : RowType) (fields : Nat)
    (calls : List (String × Option Nat)) : Except QueryError Grouping :=
  if input.arity < fields then .error (.plan (.groupTooLong fields input.arity))
  else do
    let resolved ← resolve registry input calls
    .ok ⟨fields, resolved.map Prod.fst,
      .ofFields (input.fields.take fields ++ resolved.map Prod.snd)⟩

/-- The fields that tell the group of a row. -/
def key (g : Grouping) (row : Row) : List Value :=
  row.values.take g.fields

/-- The slots of a group without rows. -/
def freshSlots (g : Grouping) : List Slot :=
  g.calls.map fun c => ⟨c.function.initial, false⟩

/-- The same values in the total order, so that NaNs are the same. -/
def sameKey (a b : List Value) : Bool :=
  decide (a.length = b.length) &&
    (a.zip b).all fun (x, y) => (x.totalCompare y).isEq

/-- The value a call takes from a row: its argument unless that is null, and a truth value
if it has no argument. -/
def taken? (c : AggregateCall) (row : Row) : Option Value :=
  match c.argument with
  | none => some (.bool true)
  | some i =>
      match row.value? i with
      | some v => if v.isNull then none else some v
      | none => none

/-- Gives a row to the slots of a group, one call after the other.  When a value is
refused, the earlier calls have taken theirs. -/
def feed (row : Row) : List AggregateCall → List Slot → Except QueryError Unit × List Slot
  | c :: calls, slot :: slots =>
      match taken? c row with
      | none =>
          let (result, slots) := feed row calls slots
          (result, slot :: slots)
      | some v =>
          match c.function.update slot.state v with
          | (.error e, state) => (.error e, { slot with state } :: slots)
          | (.ok (), state) =>
              let (result, slots) := feed row calls slots
              (result, ⟨state, true⟩ :: slots)
  | _, slots => (.ok (), slots)

/-- The results of the calls. -/
def results : List AggregateCall → List Slot → List Value
  | c :: calls, slot :: slots =>
      (if slot.seen then c.function.finish slot.state else c.function.emptyValue) ::
        results calls slots
  | _, _ => []

/-- The row of a group. -/
def rowOf (g : Grouping) (key : List Value) (slots : List Slot) : Except QueryError Row :=
  Row.ofValues g.rowType (key ++ results g.calls slots)

end Grouping
end OrderedQuery
