import OrderedQuery.Binary64.Basic

/-!
# Correctly rounded arithmetic

Every finite number is a whole multiple of `2 ^ -1074`, the least positive one.  In these
units the exact result of an operation is a fraction of natural numbers with a sign, and
the result of the operation is that fraction rounded to the nearest number, a tie going to
the even significand.  One function, `roundUnits`, does all the rounding.
-/

namespace OrderedQuery
namespace Binary64

open scoped CoreInstances

/-- The number of units `2 ^ -1074` of a finite magnitude. -/
def unitsOf (m : Nat) : Nat :=
  if m < 2 ^ (52 : Nat) then m
  else (2 ^ (52 : Nat) + m % 2 ^ (52 : Nat)) * 2 ^ (m / 2 ^ (52 : Nat) - 1)

/-- The absolute value of a finite number, in units of `2 ^ -1074`. -/
def units (x : Binary64) : Nat :=
  unitsOf x.magnitude

/-- The value of a finite number, in units of `2 ^ -1074`. -/
def signedUnits (x : Binary64) : Int :=
  if x.isNegative then -(x.units : Int) else x.units

/-- The whole number nearest to `n / d`, the even one of two. -/
def divideToEven (n d : Nat) : Nat :=
  let q := n / d
  let r := n % d
  if d < 2 * r ∨ (2 * r = d ∧ q % 2 = 1) then q + 1 else q

/-- The magnitude nearest to `n / d` units.

The significand of the result counts steps of `2 ^ p` units, where `p` makes it at least
`2 ^ 52` if it can.  A significand that rounds up to `2 ^ 53` carries into the exponent by
itself, and a result beyond the greatest finite magnitude is infinity. -/
def roundUnits (n d : Nat) : Nat :=
  let p := (n / d).log2 - 52
  min (p * 2 ^ (52 : Nat) + divideToEven n (d * 2 ^ p)) infinityMagnitude

/-- The number nearest to `n / d` units, with the given sign. -/
def ofUnits (negative : Bool) (n d : Nat) : Binary64 :=
  ofMagnitude negative (roundUnits n d)

/-- The number nearest to an integer. -/
def ofInt (i : Int) : Binary64 :=
  ofUnits (decide (i < 0)) (i.natAbs * 2 ^ (1074 : Nat)) 1

/-- The rounded sum. -/
def add (x y : Binary64) : Binary64 :=
  if x.isNaN || y.isNaN then nan
  else if x.isInfinite then
    if y.isInfinite && x.isNegative != y.isNegative then nan else x
  else if y.isInfinite then y
  else
    let sum := x.signedUnits + y.signedUnits
    if sum = 0 then zero (x.isNegative && y.isNegative)
    else ofUnits (decide (sum < 0)) sum.natAbs 1

/-- The rounded difference. -/
def sub (x y : Binary64) : Binary64 :=
  x.add y.negate

/-- The rounded product. -/
def mul (x y : Binary64) : Binary64 :=
  let negative := x.isNegative != y.isNegative
  if x.isNaN || y.isNaN then nan
  else if x.isInfinite || y.isInfinite then
    if x.isZero || y.isZero then nan else infinity negative
  else ofUnits negative (x.units * y.units) (2 ^ (1074 : Nat))

/-- The rounded quotient. -/
def div (x y : Binary64) : Binary64 :=
  let negative := x.isNegative != y.isNegative
  if x.isNaN || y.isNaN then nan
  else if x.isInfinite then
    if y.isInfinite then nan else infinity negative
  else if y.isInfinite then zero negative
  else if y.isZero then
    if x.isZero then nan else infinity negative
  else ofUnits negative (x.units * 2 ^ (1074 : Nat)) y.units

/-- The whole number nearest to a finite number, a half going away from zero. -/
def nearestInt (x : Binary64) : Int :=
  let n : Nat := (x.units + 2 ^ (1073 : Nat)) / 2 ^ (1074 : Nat)
  if x.isNegative then -(n : Int) else n

/-- The nearest integer that fits in 64 bits; a NaN gives `0`. -/
def toInt64 (x : Binary64) : Int64 :=
  if x.isNaN then 0
  else if x.isInfinite then (if x.isNegative then Int64.minValue else Int64.maxValue)
  else Int64.ofInt (max (-2 ^ (63 : Nat)) (min x.nearestInt (2 ^ (63 : Nat) - 1)))

end Binary64
end OrderedQuery
