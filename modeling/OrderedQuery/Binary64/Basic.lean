import OrderedQuery.Bytes

/-!
# Double-precision numbers

A number is given by its 64 bits: a sign, and a magnitude of 63 bits that grows with the
absolute value.  Magnitudes above that of infinity are NaNs.

Two orders matter.  `Binary64.compare` is the numerical one, in which the two zeros are
equal and a NaN compares with nothing.  `Binary64.orderKey` places every number in one
line: `-0` before `0`, and all NaNs together at the very end.
-/

namespace OrderedQuery

/-- A double-precision number, given by its bits. -/
structure Binary64 where
  /-- Sign, exponent and fraction, from the most significant bit on. -/
  bits : UInt64
  deriving DecidableEq, Repr, Inhabited

namespace Binary64

open scoped CoreInstances

/-- The magnitude of infinity. -/
def infinityMagnitude : Nat := 2047 * 2 ^ (52 : Nat)

/-- The bits without the sign. -/
def magnitude (x : Binary64) : Nat :=
  x.bits.toNat % 2 ^ (63 : Nat)

/-- The sign bit is set. -/
def isNegative (x : Binary64) : Bool :=
  decide (2 ^ (63 : Nat) ≤ x.bits.toNat)

/-- The number with a given sign and magnitude. -/
def ofMagnitude (negative : Bool) (m : Nat) : Binary64 :=
  ⟨UInt64.ofNat (if negative then 2 ^ (63 : Nat) + m else m)⟩

/-- Not a number. -/
def isNaN (x : Binary64) : Bool :=
  decide (infinityMagnitude < x.magnitude)

/-- One of the two infinities. -/
def isInfinite (x : Binary64) : Bool :=
  decide (x.magnitude = infinityMagnitude)

/-- One of the two zeros. -/
def isZero (x : Binary64) : Bool :=
  decide (x.magnitude = 0)

/-- The NaN that stands for all of them. -/
def nan : Binary64 := ⟨0x7FF8000000000000⟩

/-- Infinity of a given sign. -/
def infinity (negative : Bool) : Binary64 :=
  ofMagnitude negative infinityMagnitude

/-- Zero of a given sign. -/
def zero (negative : Bool) : Binary64 :=
  ofMagnitude negative 0

/-- The same number with the other sign. -/
def negate (x : Binary64) : Binary64 :=
  ofMagnitude (!x.isNegative) x.magnitude

/-- All NaNs replaced by one. -/
def canonical (x : Binary64) : Binary64 :=
  if x.isNaN then nan else x

/-- Place of a number that is no NaN among all of them; the zeros share place `0`. -/
def ordinal (x : Binary64) : Int :=
  if x.isNegative then -(x.magnitude : Int) else x.magnitude

/-- Numerical order; a NaN is comparable with nothing. -/
def compare (x y : Binary64) : Option Ordering :=
  if x.isNaN || y.isNaN then none else some (Ord.compare x.ordinal y.ordinal)

/-- Place of a number in the total order, as an unsigned 64-bit word. -/
def orderKey (x : Binary64) : Nat :=
  if x.isNaN then 2 ^ (64 : Nat) - 1
  else if x.isNegative then 2 ^ (64 : Nat) - 1 - x.bits.toNat
  else 2 ^ (63 : Nat) + x.bits.toNat

/-- The number at a place of the total order. -/
def ofOrderKey (key : Nat) : Binary64 :=
  if key = 2 ^ (64 : Nat) - 1 then nan
  else if 2 ^ (63 : Nat) ≤ key then ⟨UInt64.ofNat (key - 2 ^ (63 : Nat))⟩
  else ⟨UInt64.ofNat (2 ^ (64 : Nat) - 1 - key)⟩

end Binary64
end OrderedQuery
