import OrderedQuery.Binding.Env
import OrderedQuery.Expr.Basic

/-!
# Values of expressions

Logic has three values: null stands for an unknown truth.  Comparisons and arithmetic with
a null operand give null.  A conjunction whose left side is false, and a disjunction whose
left side is true, do not evaluate the right side.
-/

namespace OrderedQuery
namespace Expr

/-- A truth value; null is unknown. -/
def truth : Value → Except QueryError (Option Bool)
  | .null => .ok none
  | .bool b => .ok (some b)
  | v => .error (.value (.notBool v))

/-- The value of a truth value. -/
def ofTruth : Option Bool → Value
  | none => .null
  | some b => .bool b

/-- Conjunction of truth values. -/
def conjunction : Option Bool → Option Bool → Option Bool
  | some true, some true => some true
  | some false, _ | _, some false => some false
  | _, _ => none

/-- Disjunction of truth values. -/
def disjunction : Option Bool → Option Bool → Option Bool
  | some false, some false => some false
  | some true, _ | _, some true => some true
  | _, _ => none

/-- The value of a comparison. -/
def compareValues (op : Comparison) (l r : Value) : Except QueryError Value :=
  if l.isNull || r.isNull then .ok .null
  else
    match l.compare r with
    | some o => .ok (.bool (op.holds o))
    | none => .error (.value (.incomparable l r))

/-- The value of an arithmetic operation.  Integer results that do not fit in 64 bits are
errors, and so is a division of integers by zero. -/
def arithmeticValue (op : Arithmetic) (l r : Value) : Except QueryError Value :=
  if l.isNull || r.isNull then .ok .null
  else
    match l, r with
    | .int a, .int b =>
        if op = .div ∧ b = 0 then .error .divisionByZero
        else
          match Value.int64? (op.onInts a.toInt b.toInt) with
          | some i => .ok (.int i)
          | none => .error (.overflow (.arithmetic op a.toInt b.toInt))
    | _, _ =>
        match l.asFloat?, r.asFloat? with
        | some a, some b => .ok (.float (op.onFloats a b))
        | _, _ => .error (.value (.inapplicable op l r))

/-- The value of an expression.  Where no input row exists, as in the bounds of a scan,
`row` is `none`. -/
def eval (row : Option Row) (env : Env) : Expr → Except QueryError Value
  | field i =>
      match row with
      | none => .error (.plan (.noInputRow i))
      | some r =>
          match r.value? i with
          | some v => .ok v
          | none => .error (.plan (.fieldBeyondRow i r.arity))
  | bound position _ => env.value position
  | boundField position i _ => do
      let r ← env.row position
      match r.value? i with
      | some v => .ok v
      | none => .error (.value (.noField position i))
  | literal v => .ok v
  | null _ => .ok .null
  | compare op l r => do compareValues op (← l.eval row env) (← r.eval row env)
  | and l r => do
      let a ← truth (← l.eval row env)
      if a = some false then .ok (.bool false)
      else do
        let b ← truth (← r.eval row env)
        .ok (ofTruth (conjunction a b))
  | or l r => do
      let a ← truth (← l.eval row env)
      if a = some true then .ok (.bool true)
      else do
        let b ← truth (← r.eval row env)
        .ok (ofTruth (disjunction a b))
  | not e => do
      let a ← truth (← e.eval row env)
      .ok (ofTruth (a.map (!·)))
  | isNull e => do
      let v ← e.eval row env
      .ok (.bool v.isNull)
  | arith op l r => do arithmeticValue op (← l.eval row env) (← r.eval row env)

end Expr
end OrderedQuery
