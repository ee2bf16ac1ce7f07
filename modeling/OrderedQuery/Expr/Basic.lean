import OrderedQuery.Expr.Operation

/-!
# Expressions

An expression computes a value from an input row and an environment.
-/

namespace OrderedQuery

/-- A scalar expression. -/
inductive Expr where
  /-- A field of the input row. -/
  | field (i : Nat)
  /-- The scalar bound at a position. -/
  | bound (position : Nat) (type : ValueType)
  /-- A field of the row bound at a position. -/
  | boundField (position field : Nat) (type : ValueType)
  | literal (v : Value)
  /-- Null, as a value of a type. -/
  | null (type : ValueType)
  | compare (op : Comparison) (left right : Expr)
  | and (left right : Expr)
  | or (left right : Expr)
  | not (e : Expr)
  | isNull (e : Expr)
  | arith (op : Arithmetic) (left right : Expr)
  deriving DecidableEq, Repr

/-- Puts a number in its place in an ascending list without repetitions. -/
def insertAscending (n : Nat) : List Nat → List Nat
  | [] => [n]
  | m :: rest =>
      if n < m then n :: m :: rest
      else if n = m then m :: rest
      else m :: insertAscending n rest

/-- The numbers of a list in ascending order, without repetitions. -/
def ascendingSet (ns : List Nat) : List Nat :=
  ns.foldr insertAscending []

namespace Expr

/-- The positions an expression reads, in the order of its text. -/
def reads : Expr → List Nat
  | bound position _ => [position]
  | boundField position _ _ => [position]
  | compare _ l r | and l r | or l r | arith _ l r => l.reads ++ r.reads
  | not e | isNull e => e.reads
  | field _ | literal _ | null _ => []

/-- The positions an expression reads, ascending. -/
def boundPositions (e : Expr) : List Nat :=
  ascendingSet e.reads

/-- The expression reads the input row. -/
def readsFields : Expr → Bool
  | field _ => true
  | compare _ l r | and l r | or l r | arith _ l r => l.readsFields || r.readsFields
  | not e | isNull e => e.readsFields
  | bound .. | boundField .. | literal _ | null _ => false

end Expr
end OrderedQuery
