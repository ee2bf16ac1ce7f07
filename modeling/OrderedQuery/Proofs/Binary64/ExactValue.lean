import Mathlib.Data.EReal.Basic
import OrderedQuery.Proofs.Binary64.Integers

/-!
# The numbers that are meant

A double-precision number that is no NaN means a real number or one of the two infinities, and
comparing two of them compares what they mean.  Rounding an integer does not take it across any
other number: what is above the integer is not below the number nearest to it.
-/

namespace OrderedQuery
namespace Binary64

variable {x y : Binary64} {m m' : Nat} {i j : Int}

/-- What a number means that is no NaN. -/
noncomputable def exact (x : Binary64) : EReal :=
  if x.isInfinite then if x.isNegative then ⊥ else ⊤
  else ((x.signedUnits / unitsPerOne : ℝ) : EReal)

/-! ## Order by units -/

theorem le_roundUnits {n d : Nat} (hm : m ≤ infinityMagnitude) (hd : 0 < d)
    (h : unitsOf m * d ≤ n) : m ≤ roundUnits n d := by
  conv_lhs => rw [← roundUnits_unitsOf_mul hm hd]
  exact roundUnits_mono hd hd (Nat.mul_le_mul_right d h)

theorem unitsOf_le_iff (hm' : m' ≤ infinityMagnitude) (hm : m ≤ infinityMagnitude) :
    unitsOf m ≤ unitsOf m' ↔ m ≤ m' := by
  constructor
  · intro h
    have hround := roundUnits_le hm' Nat.one_pos (Nat.mul_le_mul_right 1 h)
    rwa [roundUnits_unitsOf_mul hm Nat.one_pos] at hround
  · exact unitsOf_mono

theorem magnitude_le (hx : x.isNaN = false) : x.magnitude ≤ infinityMagnitude :=
  Nat.not_lt.mp (of_decide_eq_false hx)

theorem signedUnits_le_iff (hx : x.isNaN = false) (hy : y.isNaN = false) :
    x.signedUnits ≤ y.signedUnits ↔ x.ordinal ≤ y.ordinal := by
  have hle := unitsOf_le_iff (magnitude_le hy) (magnitude_le hx)
  have hge := unitsOf_le_iff (magnitude_le hx) (magnitude_le hy)
  have hzero (m : Nat) : unitsOf m = 0 ↔ m = 0 := by
    constructor
    · intro h
      by_contra hm
      exact absurd h (unitsOf_pos (Nat.pos_of_ne_zero hm)).ne'
    · rintro rfl
      exact unitsOf_zero
  have hzeroX := hzero x.magnitude
  have hzeroY := hzero y.magnitude
  unfold signedUnits ordinal units
  by_cases hnx : x.isNegative = true
  · by_cases hny : y.isNegative = true
    · rw [if_pos hnx, if_pos hny, if_pos hnx, if_pos hny]
      omega
    · rw [if_pos hnx, if_neg hny, if_pos hnx, if_neg hny]
      omega
  · by_cases hny : y.isNegative = true
    · rw [if_neg hnx, if_pos hny, if_neg hnx, if_pos hny]
      omega
    · rw [if_neg hnx, if_neg hny, if_neg hnx, if_neg hny]
      omega

/-! ## Finite and infinite numbers -/

theorem exact_of_finite (hx : x.isInfinite = false) :
    x.exact = ((x.signedUnits / unitsPerOne : ℝ) : EReal) := by
  rw [exact, hx]
  rfl

theorem unitsPerOne_cast_pos : (0 : ℝ) < unitsPerOne :=
  Nat.cast_pos.mpr unitsPerOne_pos

theorem exact_le_iff_of_finite (hx : x.isInfinite = false) (hy : y.isInfinite = false) :
    x.exact ≤ y.exact ↔ x.signedUnits ≤ y.signedUnits := by
  rw [exact_of_finite hx, exact_of_finite hy, EReal.coe_le_coe_iff,
    div_le_div_iff_of_pos_right unitsPerOne_cast_pos, Int.cast_le]

theorem ordinal_of_infinite (hx : x.isInfinite = true) :
    x.ordinal = if x.isNegative then -(infinityMagnitude : Int) else infinityMagnitude := by
  rw [ordinal, of_decide_eq_true hx]

theorem ordinal_bounds_of_finite (hx : x.isNaN = false) (hfinite : x.isInfinite = false) :
    -(infinityMagnitude : Int) < x.ordinal ∧ x.ordinal < infinityMagnitude := by
  have hne : x.magnitude ≠ infinityMagnitude := of_decide_eq_false hfinite
  have hle := magnitude_le hx
  unfold ordinal
  split <;> omega

theorem exact_of_infinite (hx : x.isInfinite = true) :
    x.exact = if x.isNegative then ⊥ else ⊤ := by
  rw [exact, if_pos hx]

/-- Numbers are ordered as what they mean. -/
theorem exact_le_iff (hx : x.isNaN = false) (hy : y.isNaN = false) :
    x.exact ≤ y.exact ↔ x.ordinal ≤ y.ordinal := by
  have hinfinity : (0 : Int) < infinityMagnitude := by decide
  cases hix : x.isInfinite with
  | false =>
      have hboundsX := ordinal_bounds_of_finite hx hix
      cases hiy : y.isInfinite with
      | false => rw [exact_le_iff_of_finite hix hiy, signedUnits_le_iff hx hy]
      | true =>
          rw [exact_of_finite hix, exact_of_infinite hiy, ordinal_of_infinite hiy]
          by_cases hneg : y.isNegative = true
          · rw [if_pos hneg, if_pos hneg]
            exact iff_of_false (EReal.bot_lt_coe _).not_ge (by omega)
          · rw [if_neg hneg, if_neg hneg]
            exact iff_of_true le_top (by omega)
  | true =>
      rw [exact_of_infinite hix, ordinal_of_infinite hix]
      cases hiy : y.isInfinite with
      | false =>
          have hboundsY := ordinal_bounds_of_finite hy hiy
          rw [exact_of_finite hiy]
          by_cases hneg : x.isNegative = true
          · rw [if_pos hneg, if_pos hneg]
            exact iff_of_true bot_le (by omega)
          · rw [if_neg hneg, if_neg hneg]
            exact iff_of_false (EReal.coe_lt_top _).not_ge (by omega)
      | true =>
          rw [exact_of_infinite hiy, ordinal_of_infinite hiy]
          by_cases hneg : x.isNegative = true
          · rw [if_pos hneg, if_pos hneg]
            exact iff_of_true bot_le (by split <;> omega)
          · rw [if_neg hneg, if_neg hneg]
            by_cases hneg' : y.isNegative = true
            · rw [if_pos hneg', if_pos hneg']
              exact iff_of_false bot_lt_top.not_ge (by omega)
            · rw [if_neg hneg', if_neg hneg']
              exact iff_of_true le_top le_rfl

theorem exact_lt_iff (hx : x.isNaN = false) (hy : y.isNaN = false) :
    x.exact < y.exact ↔ x.ordinal < y.ordinal := by
  rw [← not_le, ← not_le, exact_le_iff hy hx]

theorem compare_eq_cmp_exact (hx : x.isNaN = false) (hy : y.isNaN = false) :
    x.compare y = some (cmp x.exact y.exact) := by
  rw [compare, hx, hy, Bool.or_self, if_neg Bool.false_ne_true, Option.some.injEq,
    ← cmp_eq_compare]
  rcases lt_trichotomy x.ordinal y.ordinal with hlt | heq | hgt
  · rw [hlt.cmp_eq_lt, ((exact_lt_iff hx hy).mpr hlt).cmp_eq_lt]
  · have hexact := le_antisymm ((exact_le_iff hx hy).mpr heq.le) ((exact_le_iff hy hx).mpr heq.ge)
    rw [heq.cmp_eq_eq, hexact.cmp_eq_eq]
  · rw [hgt.cmp_eq_gt, ((exact_lt_iff hy hx).mpr hgt).cmp_eq_gt]

/-! ## Integers -/

theorem isInfinite_ofInt (hi : i.natAbs ≤ 2 ^ 63) : (ofInt i).isInfinite = false := by
  rw [ofInt_eq, isInfinite_ofMagnitude (natMagnitude_lt (hi.trans (by decide)))]

theorem signedUnits_ofInt_neg (i : Int) :
    (ofInt (-i)).signedUnits = -(ofInt i).signedUnits := by
  rw [signedUnits_ofInt, signedUnits_ofInt, Int.natAbs_neg]
  rcases lt_trichotomy i 0 with hneg | rfl | hpos
  · rw [if_neg (by omega), if_pos hneg, neg_neg]
  · rw [Int.natAbs_zero, natMagnitude_zero, unitsOf_zero]
    rfl
  · rw [if_pos (by omega), if_neg (by omega)]

/-- A number above an integer is not below the number nearest to it. -/
theorem signedUnits_ofInt_le {s : Int} (hm : m ≤ infinityMagnitude)
    (hs : s = unitsOf m ∨ s = -(unitsOf m : Int)) (h : i * unitsPerOne ≤ s) :
    (ofInt i).signedUnits ≤ s := by
  rw [signedUnits_ofInt]
  by_cases hi : i < 0
  · have hproduct : i * unitsPerOne = -((i.natAbs * unitsPerOne : Nat) : Int) := by
      have habs : (i.natAbs : Int) = -i := by omega
      rw [Int.natCast_mul, habs, Int.neg_mul, Int.neg_neg]
    rw [hproduct] at h
    rw [if_pos hi]
    rcases hs with rfl | rfl
    · omega
    · have hround : m ≤ natMagnitude i.natAbs := le_roundUnits hm Nat.one_pos (by omega)
      have hunits := unitsOf_mono hround
      omega
  · have hproduct : i * unitsPerOne = ((i.natAbs * unitsPerOne : Nat) : Int) := by
      have habs : (i.natAbs : Int) = i := by omega
      rw [Int.natCast_mul, habs]
    rw [hproduct] at h
    have hround : natMagnitude i.natAbs ≤ m := roundUnits_le hm Nat.one_pos (by omega)
    have hunits := unitsOf_mono hround
    rw [if_neg hi]
    rcases hs with rfl | rfl <;> omega

theorem signedUnits_eq (x : Binary64) :
    x.signedUnits = unitsOf x.magnitude ∨ x.signedUnits = -(unitsOf x.magnitude : Int) := by
  unfold signedUnits
  split
  · exact .inr rfl
  · exact .inl rfl

theorem exact_ofInt_le (hx : x.isNaN = false) (hi : i.natAbs ≤ 2 ^ 63)
    (h : ((i : ℝ) : EReal) ≤ x.exact) : (ofInt i).exact ≤ x.exact := by
  cases hix : x.isInfinite with
  | false =>
      rw [exact_of_finite hix, EReal.coe_le_coe_iff, le_div_iff₀ unitsPerOne_cast_pos] at h
      rw [exact_le_iff_of_finite (isInfinite_ofInt hi) hix]
      apply signedUnits_ofInt_le (magnitude_le hx) x.signedUnits_eq
      exact_mod_cast h
  | true =>
      rw [exact_of_infinite hix] at h ⊢
      split
      · rename_i hneg
        rw [if_pos hneg] at h
        exact absurd h (EReal.bot_lt_coe _).not_ge
      · exact le_top

/-- A number below an integer is not above the number nearest to it. -/
theorem le_exact_ofInt (hx : x.isNaN = false) (hi : i.natAbs ≤ 2 ^ 63)
    (h : x.exact ≤ ((i : ℝ) : EReal)) : x.exact ≤ (ofInt i).exact := by
  cases hix : x.isInfinite with
  | false =>
      rw [exact_of_finite hix, EReal.coe_le_coe_iff, div_le_iff₀ unitsPerOne_cast_pos] at h
      rw [exact_le_iff_of_finite hix (isInfinite_ofInt hi)]
      have hunits : x.signedUnits ≤ i * unitsPerOne := by exact_mod_cast h
      have hround := signedUnits_ofInt_le (i := -i) (s := -x.signedUnits) (magnitude_le hx)
        (by rcases x.signedUnits_eq with hs | hs <;> omega)
        (by rw [Int.neg_mul]; exact Int.neg_le_neg hunits)
      rw [signedUnits_ofInt_neg] at hround
      exact Int.neg_le_neg_iff.mp hround
  | true =>
      rw [exact_of_infinite hix] at h ⊢
      split
      · exact bot_le
      · rename_i hneg
        rw [if_neg hneg] at h
        exact absurd h (EReal.coe_lt_top _).not_ge

theorem exact_ofInt_mono (hi : i.natAbs ≤ 2 ^ 63) (hj : j.natAbs ≤ 2 ^ 63) (h : i ≤ j) :
    (ofInt i).exact ≤ (ofInt j).exact := by
  rw [exact_le_iff_of_finite (isInfinite_ofInt hi) (isInfinite_ofInt hj)]
  exact signedUnits_ofInt_mono h

/-- Integers up to `2 ^ 53` are what the numbers nearest to them mean. -/
theorem exact_ofInt_of_le (hi : i.natAbs ≤ 2 ^ 53) : (ofInt i).exact = ((i : ℝ) : EReal) := by
  rw [exact_of_finite (isInfinite_ofInt (hi.trans (by decide))), signedUnits_ofInt_of_le hi]
  push_cast
  rw [mul_div_cancel_right₀ _ unitsPerOne_cast_pos.ne']

end Binary64
end OrderedQuery
