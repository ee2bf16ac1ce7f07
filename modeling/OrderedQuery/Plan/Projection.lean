import OrderedQuery.Expr.Eval
import OrderedQuery.Expr.Typing

/-!
# Projections

A projection computes one row of expressions from each input row.
-/

namespace OrderedQuery

/-- The expressions of a projection and the type of its rows. -/
structure Projection where
  exprs : List Expr
  rowType : RowType

namespace Projection

/-- The types of several expressions. -/
def exprTypes (input : RowType) : List Expr → Except QueryError (List ValueType)
  | [] => .ok []
  | e :: es => do
      let type ← e.type input
      let types ← exprTypes input es
      .ok (type :: types)

/-- The projection of rows of type `input`. -/
def build (input : RowType) (exprs : List Expr) : Except QueryError Projection := do
  let types ← exprTypes input exprs
  .ok ⟨exprs, .ofFields types⟩

/-- The values of several expressions on one row. -/
def evalOn (row : Row) (env : Env) : List Expr → Except QueryError (List Value)
  | [] => .ok []
  | e :: es => do
      let v ← e.eval (some row) env
      let vs ← evalOn row env es
      .ok (v :: vs)

/-- The row computed from an input row. -/
def apply (p : Projection) (env : Env) (row : Row) : Except QueryError Row := do
  let values ← evalOn row env p.exprs
  Row.ofValues p.rowType values

end Projection
end OrderedQuery
