import OrderedQuery.Binary64.Arithmetic

/-!
# Decimal text of a number

A finite number is written with the fewest decimal digits that read back as the same
number: the coarsest grid of multiples of a power of ten that has a point in the number's
rounding interval is searched from above, and of two such points the nearer is taken, the
upper one if they are equally near.  How the digits are laid out is a separate choice, made
by a `Layout`.
-/

namespace OrderedQuery
namespace Binary64

open scoped CoreInstances

/-- The decimal `coefficient * 10 ^ exponent`. -/
structure Decimal where
  /-- The digits, as one number. -/
  coefficient : Nat
  /-- The power of ten of the last digit. -/
  exponent : Int
  deriving DecidableEq, Repr

/-- How digits are turned into text. -/
structure Layout where
  /-- Whole numbers end in `.0`. -/
  pointZero : Bool
  /-- The least and the greatest exponent of the leading digit that are written without an
  exponent; `none` writes all of them so. -/
  positional : Option (Int × Int)
  deriving DecidableEq, Repr

/-- Never an exponent, and no fraction on whole numbers. -/
def Layout.plain : Layout := ⟨false, none⟩

/-- The layout that keeps floats apart from integers: whole numbers end in `.0`, and an
exponent is used from `10 ^ 16` on and below `10 ^ -4`. -/
def Layout.distinct : Layout := ⟨true, some (-4, 15)⟩

/-- The numerator and denominator of `m` half units, divided by `10 ^ e`. -/
def onGrid (halfUnits : Nat) (e : Int) : Nat × Nat :=
  if 0 ≤ e then (halfUnits, 2 ^ (1075 : Nat) * 10 ^ e.toNat)
  else (halfUnits * 10 ^ (-e).toNat, 2 ^ (1075 : Nat))

/-- The multiple of `10 ^ e` that stands for the number of magnitude `m`, if one lies in
its rounding interval. -/
def gridPoint? (m : Nat) (e : Int) : Option Nat :=
  let (value, d) := onGrid (2 * unitsOf m) e
  let (low, _) := onGrid (unitsOf (m - 1) + unitsOf m) e
  let (high, _) := onGrid (unitsOf m + unitsOf (m + 1)) e
  let inside (c : Nat) : Bool :=
    if m % 2 = 0 then decide (low ≤ c * d ∧ c * d ≤ high)
    else decide (low < c * d ∧ c * d < high)
  let c := value / d
  if inside c then
    if inside (c + 1) && decide (d ≤ 2 * (value % d)) then some (c + 1) else some c
  else if inside (c + 1) then some (c + 1)
  else none

/-- Searches `steps` grids from `10 ^ e` downwards. -/
def searchGrids (m : Nat) : Nat → Int → Decimal
  | 0, e => ⟨0, e⟩
  | steps + 1, e =>
      match gridPoint? m e with
      | some c => ⟨c, e⟩
      | none => searchGrids m steps (e - 1)

/-- The shortest decimal of a positive finite magnitude.  The greatest number is below
`10 ^ 309`, and every number is a multiple of `10 ^ -1074`. -/
def shortest (m : Nat) : Decimal :=
  searchGrids m 1384 309

/-- The text of a decimal. -/
def Decimal.text (layout : Layout) (x : Decimal) : String :=
  let digits := (toString x.coefficient).toList
  let lead : Int := x.exponent + digits.length - 1
  let inRange : Bool :=
    match layout.positional with
    | none => true
    | some (low, high) => decide (low ≤ lead ∧ lead ≤ high)
  if inRange then
    if 0 ≤ x.exponent then
      String.ofList (digits ++ List.replicate x.exponent.toNat '0') ++
        (if layout.pointZero then ".0" else "")
    else if 0 ≤ lead then
      let whole := (lead + 1).toNat
      String.ofList (digits.take whole ++ '.' :: digits.drop whole)
    else
      String.ofList ('0' :: '.' :: List.replicate (-lead - 1).toNat '0' ++ digits)
  else
    let fraction := digits.drop 1
    String.ofList (digits.take 1 ++ (if fraction.isEmpty then [] else '.' :: fraction)) ++
      "e" ++ toString lead

/-- The text of a number. -/
def text (layout : Layout) (x : Binary64) : String :=
  if x.isNaN then "NaN"
  else
    let sign := if x.isNegative then "-" else ""
    if x.isInfinite then sign ++ "inf"
    else if x.isZero then sign ++ (if layout.pointZero then "0.0" else "0")
    else sign ++ (shortest x.magnitude).text layout

end Binary64
end OrderedQuery
