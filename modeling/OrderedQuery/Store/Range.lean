import OrderedQuery.Bytes

/-!
# Ranges of keys

A range has two bounds, each of which may be absent, include its key or exclude it.
`KeyRange.isEmpty` recognises the ranges whose bounds cross.  It need not recognise a range
that happens to hold no byte string, such as the keys strictly between `k` and `k 00`.
-/

namespace OrderedQuery

/-- The order in which a scan visits keys. -/
inductive Direction where
  | forward
  | backward
  deriving DecidableEq, Repr

/-- The opposite direction. -/
def Direction.reverse : Direction → Direction
  | forward => backward
  | backward => forward

/-- One end of a range. -/
inductive Bound where
  | unbounded
  | included (key : Bytes)
  | excluded (key : Bytes)
  deriving DecidableEq, Repr

namespace Bound

/-- `k` is on the right side of a lower bound. -/
def admitsAbove : Bound → Bytes → Bool
  | unbounded, _ => true
  | included low, k => decide (low ≤ k)
  | excluded low, k => decide (low < k)

/-- `k` is on the right side of an upper bound. -/
def admitsBelow : Bound → Bytes → Bool
  | unbounded, _ => true
  | included high, k => decide (k ≤ high)
  | excluded high, k => decide (k < high)

end Bound

/-- A range of keys. -/
structure KeyRange where
  low : Bound
  high : Bound
  deriving DecidableEq, Repr

namespace KeyRange

/-- The range of all keys. -/
def all : KeyRange := ⟨.unbounded, .unbounded⟩

/-- `k` lies in the range. -/
def contains (r : KeyRange) (k : Bytes) : Bool :=
  r.low.admitsAbove k && r.high.admitsBelow k

/-- The bounds cross. -/
def isEmpty (r : KeyRange) : Bool :=
  match r.low, r.high with
  | .included low, .included high => decide (high < low)
  | .included low, .excluded high => decide (high ≤ low)
  | .excluded low, .included high => decide (high ≤ low)
  | .excluded low, .excluded high => decide (high ≤ low)
  | _, _ => false

end KeyRange
end OrderedQuery
