import OrderedQuery.CoreInstances

/-!
# Z-order curve

A point of the plane is given by two 32-bit coordinates.  Its place on the curve, the
ordinal, interleaves the bits of the two, so that points near each other often have long
common beginnings.  Coordinates and ordinals are signed; adding half their range makes
them natural numbers, on which the bits are interleaved.
-/

namespace OrderedQuery

/-- A space whose points have an ordinal; only the plane is supported. -/
structure Space where
  /-- The number of coordinates of a point. -/
  dimensions : Nat
  /-- Points have two coordinates. -/
  isPlane : dimensions = 2

namespace Space

open scoped CoreInstances

/-- Why a point or its space is refused. -/
inductive Fault where
  /-- There is no curve for this number of dimensions. -/
  | dimensions (n : Nat)
  /-- A point has the wrong number of coordinates. -/
  | coordinates (expected actual : Nat)
  /-- A coordinate does not fit in 32 bits. -/
  | range (coordinate : Int)
  deriving DecidableEq, Repr

/-- The report of a fault. -/
def Fault.message : Fault → String
  | dimensions n => s!"spatial error: unsupported dimensionality {n}, expected 2"
  | coordinates expected actual =>
      s!"spatial error: expected {expected} coordinates, got {actual}"
  | range coordinate => s!"spatial error: coordinate {coordinate} is outside the i32 range"

/-- Latitude and longitude. -/
def latLon : Space := ⟨2, rfl⟩

/-- The space with `n` dimensions. -/
def ofDimensions (n : Nat) : Except Fault Space :=
  if h : n = 2 then .ok ⟨n, h⟩ else .error (.dimensions n)

/-- Interleaves the last `bits` binary digits of two numbers; the first number supplies
the higher digit of every pair. -/
def interleave : Nat → Nat → Nat → Nat
  | 0, _, _ => 0
  | bits + 1, x, y => 4 * interleave bits (x / 2) (y / 2) + (2 * (x % 2) + y % 2)

/-- Separates `bits` pairs of binary digits. -/
def separate : Nat → Nat → Nat × Nat
  | 0, _ => (0, 0)
  | bits + 1, z =>
      let (x, y) := separate bits (z / 4)
      (2 * x + z / 2 % 2, 2 * y + z % 2)

/-- A coordinate as a natural number of 32 bits. -/
def biased (coordinate : Int) : Except Fault Nat :=
  if -2 ^ (31 : Nat) ≤ coordinate ∧ coordinate < 2 ^ (31 : Nat) then
    .ok (coordinate + 2 ^ (31 : Nat)).toNat
  else .error (.range coordinate)

/-- The ordinal of a point. -/
def shuffle (space : Space) (point : List Int64) : Except Fault Int64 :=
  match point with
  | [a, b] => do
      let x ← biased a.toInt
      let y ← biased b.toInt
      .ok (.ofInt ((interleave 32 x y : Int) - 2 ^ (63 : Nat)))
  | _ => .error (.coordinates space.dimensions point.length)

/-- The point with a given ordinal. -/
def unshuffle (_space : Space) (ordinal : Int64) : List Int64 :=
  let (x, y) := separate 32 (ordinal.toInt + 2 ^ (63 : Nat)).toNat
  [.ofInt ((x : Int) - 2 ^ (31 : Nat)), .ofInt ((y : Int) - 2 ^ (31 : Nat))]

end Space
end OrderedQuery
