import OrderedQuery.Expr.Basic
import OrderedQuery.Row.Basic

/-!
# Types of expressions

`Expr.type` computes the type of an expression over rows of a given type, or reports the
first thing that is wrong, from left to right.
-/

namespace OrderedQuery
namespace Expr

/-- Requires a boolean operand. -/
def requireBool (type : ValueType) : Except QueryError Unit :=
  if type = .bool then .ok () else .error (.plan (.operandNotBool type))

/-- The type of a comparison. -/
def comparisonType (op : Comparison) (l r : ValueType) : Except QueryError ValueType :=
  if l.comparable r then .ok .bool
  else .error (.plan (.incompatibleOperands op.symbol l r))

/-- The type of an arithmetic operation: integers stay integers, and other numbers become
floats. -/
def arithmeticType (op : Arithmetic) (l r : ValueType) : Except QueryError ValueType :=
  if l = .int ∧ r = .int then .ok .int
  else if l.isNumeric && r.isNumeric then .ok .float
  else .error (.plan (.incompatibleOperands op.symbol l r))

/-- The type of an expression over rows of type `input`. -/
def type (input : RowType) : Expr → Except QueryError ValueType
  | field i =>
      match input.field? i with
      | some type => .ok type
      | none => .error (.plan (.fieldOutOfRange i input.arity))
  | bound _ type | boundField _ _ type | null type => .ok type
  | literal v =>
      match v.type? with
      | some type => .ok type
      | none => .error (.plan .untypedNull)
  | compare op l r => do comparisonType op (← l.type input) (← r.type input)
  | and l r | or l r => do
      requireBool (← l.type input)
      requireBool (← r.type input)
      .ok .bool
  | not e => do
      requireBool (← e.type input)
      .ok .bool
  | isNull e => do
      let _ ← e.type input
      .ok .bool
  | arith op l r => do arithmeticType op (← l.type input) (← r.type input)

end Expr
end OrderedQuery
