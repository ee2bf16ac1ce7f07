import OrderedQuery.Proofs.Binary64.Rounding

/-!
# Integers as numbers

An integer becomes the nearest number, which is the integer itself up to `2 ^ 53` and another
integer beyond.  Numbers without a sign are dealt with as magnitudes.
-/

namespace OrderedQuery
namespace Binary64

variable {a b m m' : Nat} {negative : Bool} {i j : Int}

theorem natAbs_toInt_le (a : Int64) : a.toInt.natAbs ≤ 2 ^ 63 := by
  have hlow := a.le_toInt
  have hhigh := a.toInt_lt
  omega

theorem infinityMagnitude_lt : infinityMagnitude < 2 ^ 63 := by decide

theorem toNat_bits_ofMagnitude (hm : m ≤ infinityMagnitude) :
    (ofMagnitude negative m).bits.toNat = if negative then 2 ^ 63 + m else m := by
  have hlt := infinityMagnitude_lt
  unfold ofMagnitude
  rw [UInt64.toNat_ofNat']
  apply Nat.mod_eq_of_lt
  split <;> omega

theorem magnitude_ofMagnitude (hm : m ≤ infinityMagnitude) :
    (ofMagnitude negative m).magnitude = m := by
  have hlt := infinityMagnitude_lt
  rw [magnitude, toNat_bits_ofMagnitude hm]
  split <;> omega

theorem isNegative_ofMagnitude (hm : m ≤ infinityMagnitude) :
    (ofMagnitude negative m).isNegative = negative := by
  have hlt := infinityMagnitude_lt
  rw [isNegative, toNat_bits_ofMagnitude hm]
  cases negative with
  | false => simpa using Nat.lt_of_le_of_lt hm hlt
  | true => simp

theorem isNaN_ofMagnitude (hm : m ≤ infinityMagnitude) :
    (ofMagnitude negative m).isNaN = false := by
  rw [isNaN, magnitude_ofMagnitude hm]
  exact decide_eq_false (by omega)

theorem isInfinite_ofMagnitude (hm : m < infinityMagnitude) :
    (ofMagnitude negative m).isInfinite = false := by
  rw [isInfinite, magnitude_ofMagnitude hm.le]
  exact decide_eq_false (by omega)

theorem isInfinite_infinity : (ofMagnitude negative infinityMagnitude).isInfinite = true := by
  rw [isInfinite, magnitude_ofMagnitude (Nat.le_refl _)]
  exact decide_eq_true rfl

theorem units_ofMagnitude (hm : m ≤ infinityMagnitude) :
    (ofMagnitude negative m).units = unitsOf m := by
  rw [units, magnitude_ofMagnitude hm]

theorem signedUnits_ofMagnitude (hm : m ≤ infinityMagnitude) :
    (ofMagnitude negative m).signedUnits = if negative then -(unitsOf m : Int) else unitsOf m := by
  rw [signedUnits, isNegative_ofMagnitude hm, units_ofMagnitude hm]

theorem negate_ofMagnitude (hm : m ≤ infinityMagnitude) :
    (ofMagnitude negative m).negate = ofMagnitude (!negative) m := by
  rw [negate, isNegative_ofMagnitude hm, magnitude_ofMagnitude hm]

theorem unitsOf_pos (hm : 0 < m) : 0 < unitsOf m := by
  have hone : unitsOf 1 ≤ unitsOf m := unitsOf_mono hm
  exact hone

/-- There are `2 ^ oneExponent` units in `1`.  A name keeps the power from being computed. -/
@[irreducible]
def oneExponent : Nat := 1074

theorem oneExponent_eq : oneExponent = 1074 := by rw [oneExponent]

/-- The number of units in `1`. -/
def unitsPerOne : Nat := 2 ^ oneExponent

theorem two_pow_mul_unitsPerOne (k : Nat) : 2 ^ k * unitsPerOne = 2 ^ (k + oneExponent) :=
  (Nat.pow_add 2 k oneExponent).symm

theorem unitsPerOne_pos : 0 < unitsPerOne := Nat.two_pow_pos oneExponent

/-! ## Products and quotients of numbers without a sign -/

theorem mul_ofMagnitude (ha : a < infinityMagnitude) (hb : b < infinityMagnitude) :
    (ofMagnitude false a).mul (ofMagnitude false b) =
      ofMagnitude false (roundUnits (unitsOf a * unitsOf b) unitsPerOne) := by
  rw [mul, ← oneExponent_eq]
  simp only [isNaN_ofMagnitude ha.le, isNaN_ofMagnitude hb.le, isInfinite_ofMagnitude ha,
    isInfinite_ofMagnitude hb, isNegative_ofMagnitude ha.le, isNegative_ofMagnitude hb.le,
    units_ofMagnitude ha.le, units_ofMagnitude hb.le]
  rfl

theorem div_ofMagnitude (ha : a < infinityMagnitude) (hb : b < infinityMagnitude)
    (hpos : 0 < b) :
    (ofMagnitude false a).div (ofMagnitude false b) =
      ofMagnitude false (roundUnits (unitsOf a * unitsPerOne) (unitsOf b)) := by
  have hzero : (ofMagnitude false b).isZero = false := by
    rw [isZero, magnitude_ofMagnitude hb.le]
    exact decide_eq_false (by omega)
  rw [div, ← oneExponent_eq]
  simp only [isNaN_ofMagnitude ha.le, isNaN_ofMagnitude hb.le, isInfinite_ofMagnitude ha,
    isInfinite_ofMagnitude hb, isNegative_ofMagnitude ha.le, isNegative_ofMagnitude hb.le,
    units_ofMagnitude ha.le, units_ofMagnitude hb.le, hzero]
  rfl

/-- A number divided by infinity is zero. -/
theorem div_infinity (ha : a < infinityMagnitude) :
    (ofMagnitude false a).div (ofMagnitude false infinityMagnitude) = ofMagnitude false 0 := by
  rw [div, ← oneExponent_eq]
  simp only [isNaN_ofMagnitude ha.le, isNaN_ofMagnitude (Nat.le_refl infinityMagnitude),
    isInfinite_ofMagnitude ha, isNegative_ofMagnitude ha.le,
    isNegative_ofMagnitude (Nat.le_refl infinityMagnitude), isInfinite_infinity]
  rfl

/-! ## Integers -/

/-- The magnitude of the number nearest to a natural number. -/
def natMagnitude (n : Nat) : Nat := roundUnits (n * unitsPerOne) 1

theorem ofInt_eq (i : Int) :
    ofInt i = ofMagnitude (decide (i < 0)) (natMagnitude i.natAbs) := by
  rw [ofInt, ← oneExponent_eq]
  rfl

theorem ofInt_natCast (n : Nat) : ofInt n = ofMagnitude false (natMagnitude n) := by
  have hnonneg : decide ((n : Int) < 0) = false := decide_eq_false (by omega)
  rw [ofInt_eq, hnonneg, Int.natAbs_natCast]

theorem natMagnitude_le (n : Nat) : natMagnitude n ≤ infinityMagnitude :=
  roundUnits_le_infinityMagnitude _ _

theorem isNaN_ofInt (i : Int) : (ofInt i).isNaN = false := by
  rw [ofInt_eq, isNaN_ofMagnitude (natMagnitude_le _)]

theorem natMagnitude_mono (h : a ≤ b) : natMagnitude a ≤ natMagnitude b := by
  apply roundUnits_mono Nat.one_pos Nat.one_pos
  exact Nat.mul_le_mul_right 1 (Nat.mul_le_mul_right _ h)

theorem natMagnitude_zero : natMagnitude 0 = 0 := by
  rw [natMagnitude, Nat.zero_mul]
  rfl

/-- The number nearest to a number of units that some step divides is that number. -/
theorem unitsOf_roundUnits_of_dvd {n p : Nat} (h : StepsOf n 1 p) (hdvd : 2 ^ p ∣ n)
    (hfinite : roundUnits n 1 < infinityMagnitude) : unitsOf (roundUnits n 1) = n := by
  obtain ⟨k, rfl⟩ := hdvd
  have hexact : divideToEven (2 ^ p * k) (1 * 2 ^ p) = k := by
    rw [Nat.one_mul, Nat.mul_comm]
    exact divideToEven_mul k (Nat.two_pow_pos p)
  have hshort := h.divideToEven_le Nat.one_pos
  have hlong := h.le_divideToEven Nat.one_pos
  rw [hexact] at hshort hlong
  rw [h.roundUnits_eq Nat.one_pos, hexact] at hfinite ⊢
  have hmin : min (p * 2 ^ 52 + k) infinityMagnitude = p * 2 ^ 52 + k := by omega
  rw [hmin, unitsOf_add hshort hlong, Nat.mul_comm]

/-- Large powers of two are numbers, and far from infinity up to the length of an integer. -/
theorem exists_unitsOf_eq_two_pow {k : Nat} (hlow : 52 ≤ k) (hhigh : k ≤ 64) :
    ∃ m, m < infinityMagnitude ∧ unitsOf m = 2 ^ k * unitsPerOne := by
  have hone := oneExponent_eq
  refine ⟨(oneExponent + (k - 52)) * 2 ^ 52 + 2 ^ 52, ?_, ?_⟩
  · unfold infinityMagnitude
    omega
  · have hexp : 52 + (oneExponent + (k - 52)) = k + oneExponent := by omega
    rw [unitsOf_add (by decide) (.inr (Nat.le_refl _)), two_pow_mul_unitsPerOne, ← Nat.pow_add,
      hexp]

theorem roundUnits_lt_infinityMagnitude {n : Nat} (h : n ≤ 2 ^ 64 * unitsPerOne) :
    roundUnits n 1 < infinityMagnitude := by
  obtain ⟨m, hfinite, hunits⟩ := exists_unitsOf_eq_two_pow (k := 64) (by decide) (by decide)
  have hbound : roundUnits n 1 ≤ m := by
    apply roundUnits_le hfinite.le Nat.one_pos
    rwa [hunits, Nat.mul_one]
  exact Nat.lt_of_le_of_lt hbound hfinite

/-- Rounding leaves the integers of 64 bits where they are. -/
theorem unitsOf_natMagnitude_le (h : a ≤ 2 ^ 63) :
    unitsOf (natMagnitude a) ≤ 2 ^ 63 * unitsPerOne := by
  obtain ⟨m, hfinite, hunits⟩ := exists_unitsOf_eq_two_pow (k := 63) (by decide) (by decide)
  rw [← hunits]
  apply unitsOf_mono
  apply roundUnits_le hfinite.le Nat.one_pos
  rw [hunits, Nat.mul_one]
  exact Nat.mul_le_mul_right _ h

theorem natMagnitude_lt (h : a ≤ 2 ^ 64) : natMagnitude a < infinityMagnitude :=
  roundUnits_lt_infinityMagnitude (Nat.mul_le_mul_right _ h)

/-- Integers up to `2 ^ 53` are numbers. -/
theorem unitsOf_natMagnitude (h : a ≤ 2 ^ 53) : unitsOf (natMagnitude a) = a * unitsPerOne := by
  have hfinite := natMagnitude_lt (h.trans (by decide : 2 ^ 53 ≤ 2 ^ 64))
  have hsteps := stepsOf_log2 (a * unitsPerOne) Nat.one_pos
  generalize (a * unitsPerOne / 1).log2 - 52 = p at hsteps
  refine unitsOf_roundUnits_of_dvd hsteps ?_ hfinite
  by_cases hp : p ≤ oneExponent
  · exact Dvd.dvd.mul_left (Nat.pow_dvd_pow 2 hp) a
  · have hlong : 2 ^ (p + 52) ≤ a * unitsPerOne := by
      have := hsteps.2.resolve_left (by omega)
      rwa [Nat.one_mul] at this
    have hbound : a * unitsPerOne ≤ 2 ^ (53 + oneExponent) := by
      rw [← two_pow_mul_unitsPerOne]
      exact Nat.mul_le_mul_right _ h
    have hexp := (Nat.pow_le_pow_iff_right (by decide)).mp (hlong.trans hbound)
    obtain rfl : p = 1 + oneExponent := by omega
    have hexp' : 1 + oneExponent + 52 = 53 + oneExponent := by omega
    rw [hexp'] at hlong
    rw [Nat.le_antisymm hbound hlong]
    exact Nat.pow_dvd_pow 2 (by omega)

theorem unitsOf_natMagnitude_one : unitsOf (natMagnitude 1) = unitsPerOne := by
  have hunits := unitsOf_natMagnitude (a := 1) (by decide)
  rwa [Nat.one_mul] at hunits

theorem natMagnitude_pos (h : 0 < a) : 0 < natMagnitude a := by
  have hone : natMagnitude 1 ≤ natMagnitude a := natMagnitude_mono h
  have hunits := unitsOf_natMagnitude_one
  rcases Nat.eq_zero_or_pos (natMagnitude 1) with hzero | hpos
  · rw [hzero] at hunits
    exact absurd hunits.symm unitsPerOne_pos.ne'
  · exact Nat.lt_of_lt_of_le hpos hone

/-- The number nearest to an integer is an integer. -/
theorem dvd_unitsOf_natMagnitude (a : Nat) : unitsPerOne ∣ unitsOf (natMagnitude a) := by
  by_cases hsmall : a ≤ 2 ^ 53
  · rw [unitsOf_natMagnitude hsmall]
    exact Nat.dvd_mul_left _ a
  · have hone := oneExponent_eq
    have hsteps := stepsOf_log2 (a * unitsPerOne) Nat.one_pos
    rw [natMagnitude, hsteps.roundUnits_eq Nat.one_pos]
    have hp : oneExponent ≤ (a * unitsPerOne / 1).log2 - 52 := by
      have hlarge : 2 ^ (53 + oneExponent) ≤ a * unitsPerOne := by
        rw [← two_pow_mul_unitsPerOne]
        exact Nat.mul_le_mul_right _ (by omega)
      have hne : a * unitsPerOne ≠ 0 := (Nat.mul_pos (by omega) unitsPerOne_pos).ne'
      have hlog := (Nat.le_log2 hne).mpr hlarge
      rw [Nat.div_one]
      omega
    generalize (a * unitsPerOne / 1).log2 - 52 = p at *
    have hshort := hsteps.divideToEven_le Nat.one_pos
    have hlong := hsteps.le_divideToEven Nat.one_pos
    rcases Nat.le_total (p * 2 ^ 52 + divideToEven (a * unitsPerOne) (1 * 2 ^ p))
      infinityMagnitude with hle | hge
    · rw [Nat.min_eq_left hle, unitsOf_add hshort hlong]
      exact Dvd.dvd.mul_left (Nat.pow_dvd_pow 2 hp) _
    · have hinfinity : infinityMagnitude = (oneExponent + 972) * 2 ^ 52 + 2 ^ 52 := by
        unfold infinityMagnitude
        omega
      have hunits : unitsOf ((oneExponent + 972) * 2 ^ 52 + 2 ^ 52) =
          2 ^ 52 * 2 ^ (oneExponent + 972) :=
        unitsOf_add (by decide) (.inr (Nat.le_refl _))
      rw [Nat.min_eq_right hge, hinfinity, hunits]
      have hdvd : 2 ^ oneExponent ∣ 2 ^ (oneExponent + 972) :=
        Nat.pow_dvd_pow 2 (Nat.le_add_right oneExponent 972)
      exact Dvd.dvd.mul_left hdvd (2 ^ 52)

/-- The value of the number nearest to an integer, in units. -/
theorem signedUnits_ofInt (i : Int) :
    (ofInt i).signedUnits = if i < 0 then -(unitsOf (natMagnitude i.natAbs) : Int)
      else unitsOf (natMagnitude i.natAbs) := by
  rw [ofInt_eq, signedUnits_ofMagnitude (natMagnitude_le i.natAbs)]
  simp only [decide_eq_true_eq]

theorem signedUnits_ofInt_mono (h : i ≤ j) : (ofInt i).signedUnits ≤ (ofInt j).signedUnits := by
  rw [signedUnits_ofInt, signedUnits_ofInt]
  by_cases hj : j < 0
  · have hunits : unitsOf (natMagnitude j.natAbs) ≤ unitsOf (natMagnitude i.natAbs) :=
      unitsOf_mono (natMagnitude_mono (by omega))
    rw [if_pos (by omega), if_pos hj]
    omega
  · rw [if_neg hj]
    by_cases hi : i < 0
    · rw [if_pos hi]
      omega
    · have hunits : unitsOf (natMagnitude i.natAbs) ≤ unitsOf (natMagnitude j.natAbs) :=
        unitsOf_mono (natMagnitude_mono (by omega))
      rw [if_neg hi]
      omega

theorem natAbs_signedUnits_ofInt_le (h : i.natAbs ≤ 2 ^ 63) :
    (ofInt i).signedUnits.natAbs ≤ 2 ^ 63 * unitsPerOne := by
  have hunits := unitsOf_natMagnitude_le h
  rw [signedUnits_ofInt]
  split <;> omega

theorem dvd_signedUnits_ofInt (i : Int) : (unitsPerOne : Int) ∣ (ofInt i).signedUnits := by
  have hdvd : (unitsPerOne : Int) ∣ unitsOf (natMagnitude i.natAbs) :=
    Int.natCast_dvd_natCast.mpr (dvd_unitsOf_natMagnitude i.natAbs)
  rw [signedUnits_ofInt]
  split
  · exact (Int.dvd_neg).mpr hdvd
  · exact hdvd

theorem signedUnits_ofInt_of_le (h : i.natAbs ≤ 2 ^ 53) :
    (ofInt i).signedUnits = i * unitsPerOne := by
  rw [signedUnits_ofInt, unitsOf_natMagnitude h, Int.natCast_mul]
  by_cases hneg : i < 0
  · have habs : (i.natAbs : Int) = -i := by omega
    rw [if_pos hneg, habs, Int.neg_mul, Int.neg_neg]
  · have habs : (i.natAbs : Int) = i := by omega
    rw [if_neg hneg, habs]

/-- The difference of the numbers nearest to two integers of 64 bits, the larger one first. -/
theorem sub_ofInt (hi : i.natAbs ≤ 2 ^ 63) (hj : j.natAbs ≤ 2 ^ 63) (h : i ≤ j) :
    (ofInt j).sub (ofInt i) =
      ofMagnitude false
        (roundUnits ((ofInt j).signedUnits - (ofInt i).signedUnits).toNat 1) := by
  have hmono := signedUnits_ofInt_mono h
  have hmi := natMagnitude_lt (hi.trans (by decide : 2 ^ 63 ≤ 2 ^ 64))
  have hmj := natMagnitude_lt (hj.trans (by decide : 2 ^ 63 ≤ 2 ^ 64))
  have hnegate : (ofInt i).negate.signedUnits = -(ofInt i).signedUnits := by
    rw [ofInt_eq, negate_ofMagnitude hmi.le, signedUnits_ofMagnitude hmi.le,
      signedUnits_ofMagnitude hmi.le]
    cases decide (i < 0) <;> simp
  have hsum : (ofInt j).signedUnits + (ofInt i).negate.signedUnits =
      (ofInt j).signedUnits - (ofInt i).signedUnits := by
    rw [hnegate, Int.sub_eq_add_neg]
  generalize hd : (ofInt j).signedUnits - (ofInt i).signedUnits = difference at *
  rw [sub, add]
  simp only [hsum]
  rw [ofInt_eq j, ofInt_eq i, negate_ofMagnitude hmi.le]
  simp only [isNaN_ofMagnitude hmi.le, isNaN_ofMagnitude hmj.le, isInfinite_ofMagnitude hmi,
    isInfinite_ofMagnitude hmj, isNegative_ofMagnitude hmi.le, isNegative_ofMagnitude hmj.le,
    Bool.or_self, Bool.false_eq_true, if_false]
  by_cases hzero : difference = 0
  · -- The signs differ, or the larger integer is not negative.
    have hsign : (decide (j < 0) && !decide (i < 0)) = false := by
      by_cases hneg : j < 0
      · have : i < 0 := by omega
        simp [this]
      · simp [hneg]
    rw [if_pos hzero, hzero, hsign]
    rfl
  · have habs : difference.natAbs = difference.toNat := by omega
    have hsign : decide (difference < 0) = false := decide_eq_false (by omega)
    rw [if_neg hzero, habs, hsign]
    rfl

/-! ## Rounding to integers -/

/-- The nearest natural number, a half going up. -/
def nearestNat (m : Nat) : Nat :=
  (unitsOf m + 2 ^ (oneExponent - 1)) / unitsPerOne

theorem nearestNat_mono (h : m ≤ m') : nearestNat m ≤ nearestNat m' :=
  Nat.div_le_div_right (Nat.add_le_add_right (unitsOf_mono h) _)

theorem two_pow_lt_unitsPerOne : 2 ^ (oneExponent - 1) < unitsPerOne := by
  have hone := oneExponent_eq
  exact Nat.pow_lt_pow_right (by decide) (by omega)

/-- A whole number is the nearest one to itself. -/
theorem nearestNat_of_unitsOf_eq {k : Nat} (h : unitsOf m = k * unitsPerOne) :
    nearestNat m = k := by
  rw [nearestNat, h, Nat.add_comm, Nat.add_mul_div_right _ _ unitsPerOne_pos,
    Nat.div_eq_of_lt two_pow_lt_unitsPerOne, Nat.zero_add]

theorem nearestInt_ofMagnitude (hm : m ≤ infinityMagnitude) :
    (ofMagnitude false m).nearestInt = nearestNat m := by
  have hhalf : oneExponent - 1 = 1073 := by rw [oneExponent_eq]
  rw [nearestInt, isNegative_ofMagnitude hm, units_ofMagnitude hm, ← oneExponent_eq, ← hhalf]
  rfl

/-- The nearest integer of 64 bits. -/
theorem toInt_toInt64_ofMagnitude (hm : m < infinityMagnitude) :
    (ofMagnitude false m).toInt64.toInt = min (nearestNat m : Int) (2 ^ 63 - 1) := by
  rw [toInt64, isNaN_ofMagnitude hm.le, isInfinite_ofMagnitude hm, nearestInt_ofMagnitude hm.le]
  simp only [Bool.false_eq_true, if_false]
  rw [Int64.toInt_ofInt_of_le (by omega) (by omega)]
  omega

theorem toInt_toInt64_infinity :
    (ofMagnitude false infinityMagnitude).toInt64.toInt = 2 ^ 63 - 1 := by
  rw [toInt64, isNaN_ofMagnitude (Nat.le_refl _), isInfinite_infinity,
    isNegative_ofMagnitude (Nat.le_refl _)]
  exact Int64.toInt_maxValue

theorem toInt_toInt64_mono (h : m ≤ m') (hm' : m' ≤ infinityMagnitude) :
    (ofMagnitude false m).toInt64.toInt ≤ (ofMagnitude false m').toInt64.toInt := by
  rcases Nat.lt_or_eq_of_le hm' with hfinite | rfl
  · have hnearest := nearestNat_mono h
    rw [toInt_toInt64_ofMagnitude (Nat.lt_of_le_of_lt h hfinite),
      toInt_toInt64_ofMagnitude hfinite]
    omega
  · have hmax := Int64.toInt_lt (ofMagnitude false m).toInt64
    rw [toInt_toInt64_infinity]
    omega

theorem toInt_toInt64_zero : (ofMagnitude false 0).toInt64.toInt = 0 := by
  have hzero : nearestNat 0 = 0 := nearestNat_of_unitsOf_eq (Nat.zero_mul unitsPerOne).symm
  rw [toInt_toInt64_ofMagnitude (by decide), hzero]
  rfl

end Binary64
end OrderedQuery
