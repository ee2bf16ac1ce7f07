import OrderedQuery.Value.Basic

/-!
# Operations of expressions

Comparisons and arithmetic, with the symbols messages show for them.
-/

namespace OrderedQuery

/-- A comparison of two values. -/
inductive Comparison where
  | eq
  | ne
  | lt
  | le
  | gt
  | ge
  deriving DecidableEq, Repr

namespace Comparison

/-- The symbol of a comparison. -/
def symbol : Comparison → String
  | eq => "="
  | ne => "<>"
  | lt => "<"
  | le => "<="
  | gt => ">"
  | ge => ">="

/-- The comparison is true of two values that are in the given order. -/
def holds : Comparison → Ordering → Bool
  | eq, o => o.isEq
  | ne, o => o.isNe
  | lt, o => o.isLT
  | le, o => o.isLE
  | gt, o => o.isGT
  | ge, o => o.isGE

end Comparison

/-- An arithmetic operation. -/
inductive Arithmetic where
  | add
  | sub
  | mul
  | div
  deriving DecidableEq, Repr

namespace Arithmetic

/-- The symbol of an operation. -/
def symbol : Arithmetic → String
  | add => "+"
  | sub => "-"
  | mul => "*"
  | div => "/"

/-- The exact result on integers; a quotient is cut towards zero. -/
def onInts : Arithmetic → Int → Int → Int
  | add, a, b => a + b
  | sub, a, b => a - b
  | mul, a, b => a * b
  | div, a, b => a.tdiv b

/-- The rounded result on floats. -/
def onFloats : Arithmetic → Binary64 → Binary64 → Binary64
  | add, a, b => a.add b
  | sub, a, b => a.sub b
  | mul, a, b => a.mul b
  | div, a, b => a.div b

end Arithmetic
end OrderedQuery
