import Mathlib.Algebra.Order.Ring.Nat
import Mathlib.Tactic.Linarith
import Mathlib.Tactic.Ring
import OrderedQuery.Binary64.Arithmetic

/-!
# Rounding

Exact results are fractions `n / d` of natural numbers, so that two of them are compared by
cross-multiplication.  Rounding is monotone and leaves the magnitudes alone, which bounds a
rounded result by any magnitude that bounds the exact one.  From `2 ^ 52` units on, a rounded
result is larger than the exact one by one part in `2 ^ 53` at most.
-/

namespace OrderedQuery
namespace Binary64

variable {n d n' d' p p' k m m' : Nat}

/-! ## The nearest whole number -/

theorem divideToEven_cases (n d : Nat) :
    (divideToEven n d = n / d ∧ 2 * (n % d) ≤ d) ∨
      (divideToEven n d = n / d + 1 ∧ d ≤ 2 * (n % d)) := by
  unfold divideToEven
  simp only
  split
  · exact .inr ⟨rfl, by omega⟩
  · exact .inl ⟨rfl, by omega⟩

theorem divideToEven_mul (k : Nat) (hd : 0 < d) : divideToEven (k * d) d = k := by
  unfold divideToEven
  rw [Nat.mul_div_cancel k hd, Nat.mul_mod_left]
  rw [if_neg (by omega)]

/-- The nearest whole number is at most half a unit above. -/
theorem two_mul_divideToEven_le (n d : Nat) : 2 * (divideToEven n d * d) ≤ 2 * n + d := by
  have hdivision : n / d * d + n % d = n := by
    rw [Nat.mul_comm]
    exact Nat.div_add_mod n d
  rcases divideToEven_cases n d with ⟨heq, hrest⟩ | ⟨heq, hrest⟩
  · rw [heq]
    omega
  · rw [heq, Nat.add_mul]
    omega

theorem divideToEven_mono (hd : 0 < d) (hd' : 0 < d') (h : n * d' ≤ n' * d) :
    divideToEven n d ≤ divideToEven n' d' := by
  have hdivision := Nat.div_add_mod n d
  have hdivision' := Nat.div_add_mod n' d'
  have hrest := Nat.mod_lt n hd
  have hfloor : n / d ≤ n' / d' := by
    rw [Nat.le_div_iff_mul_le hd']
    apply Nat.le_of_mul_le_mul_right _ hd
    calc n / d * d' * d = n / d * d * d' := Nat.mul_right_comm _ _ _
      _ ≤ n * d' := Nat.mul_le_mul_right d' (Nat.div_mul_le_self n d)
      _ ≤ n' * d := h
  rcases Nat.lt_or_eq_of_le hfloor with hlt | heq
  · have hleft : divideToEven n d ≤ n / d + 1 := by
      rcases divideToEven_cases n d with ⟨hc, -⟩ | ⟨hc, -⟩ <;> omega
    have hright : n' / d' ≤ divideToEven n' d' := by
      rcases divideToEven_cases n' d' with ⟨hc, -⟩ | ⟨hc, -⟩ <;> omega
    omega
  · -- Both lie above the same whole number, so their rests are compared.
    have hrests : n % d * d' ≤ n' % d' * d := by
      have hleft : n * d' = n / d * (d * d') + n % d * d' := by
        conv_lhs => rw [← hdivision]
        ring
      have hright : n' * d = n / d * (d * d') + n' % d' * d := by
        conv_lhs => rw [← hdivision', ← heq]
        ring
      omega
    unfold divideToEven
    simp only
    rw [← heq]
    by_cases hup : d < 2 * (n % d) ∨ 2 * (n % d) = d ∧ n / d % 2 = 1
    · have hup' : d' < 2 * (n' % d') ∨ 2 * (n' % d') = d' ∧ n / d % 2 = 1 := by
        rcases hup with habove | ⟨htie, hodd⟩
        · left
          nlinarith
        · rcases Nat.lt_or_ge d' (2 * (n' % d')) with habove | hbelow
          · exact .inl habove
          · refine .inr ⟨?_, hodd⟩
            nlinarith
      rw [if_pos hup, if_pos hup']
    · rw [if_neg hup]
      split <;> omega

theorem divideToEven_le (hd : 0 < d) (h : n ≤ k * d) : divideToEven n d ≤ k := by
  rw [← divideToEven_mul k hd]
  exact divideToEven_mono hd hd (Nat.mul_le_mul_right d h)

theorem le_divideToEven (hd : 0 < d) (h : k * d ≤ n) : k ≤ divideToEven n d := by
  rw [← divideToEven_mul k hd]
  exact divideToEven_mono hd hd (Nat.mul_le_mul_right d h)

/-! ## Steps -/

/-- The significand of `n / d` counts steps of `2 ^ p` units. -/
def StepsOf (n d p : Nat) : Prop :=
  n < d * 2 ^ (p + 53) ∧ (p = 0 ∨ d * 2 ^ (p + 52) ≤ n)

theorem stepsOf_log2 (n : Nat) (hd : 0 < d) : StepsOf n d ((n / d).log2 - 52) := by
  have hdivision := Nat.div_add_mod n d
  have hrest := Nat.mod_lt n hd
  constructor
  · have hbelow : n / d < 2 ^ ((n / d).log2 - 52 + 53) :=
      Nat.lt_of_lt_of_le Nat.lt_log2_self (Nat.pow_le_pow_right (by decide) (by omega))
    have hmul := Nat.mul_le_mul_left d hbelow
    rw [Nat.mul_succ] at hmul
    omega
  · rcases Nat.eq_zero_or_pos ((n / d).log2 - 52) with hzero | hpos
    · exact .inl hzero
    · right
      have hne : n / d ≠ 0 := by
        intro h
        rw [h] at hpos
        exact absurd hpos (by decide)
      have hexp : (n / d).log2 - 52 + 52 = (n / d).log2 := by omega
      rw [hexp]
      have habove := Nat.mul_le_mul_left d (Nat.log2_self_le hne)
      omega

/-- Larger numbers have longer steps. -/
theorem StepsOf.le (h : StepsOf n d p) (h' : StepsOf n' d' p') (hd : 0 < d)
    (hle : n * d' ≤ n' * d) : p ≤ p' := by
  rcases h.2 with rfl | hlow
  · exact Nat.zero_le p'
  · have hlt : d * d' * 2 ^ (p + 52) < d * d' * 2 ^ (p' + 53) := by
      calc d * d' * 2 ^ (p + 52) = d * 2 ^ (p + 52) * d' := by ring
        _ ≤ n * d' := Nat.mul_le_mul_right d' hlow
        _ ≤ n' * d := hle
        _ < d' * 2 ^ (p' + 53) * d := Nat.mul_lt_mul_of_pos_right h'.1 hd
        _ = d * d' * 2 ^ (p' + 53) := by ring
    have hpow := Nat.lt_of_mul_lt_mul_left hlt
    have := (Nat.pow_lt_pow_iff_right (by decide)).mp hpow
    omega

theorem StepsOf.unique (h : StepsOf n d p) (h' : StepsOf n d p') (hd : 0 < d) : p = p' :=
  Nat.le_antisymm (h.le h' hd (Nat.le_refl _)) (h'.le h hd (Nat.le_refl _))

theorem StepsOf.divideToEven_le (h : StepsOf n d p) (hd : 0 < d) :
    divideToEven n (d * 2 ^ p) ≤ 2 ^ 53 := by
  apply Binary64.divideToEven_le (Nat.mul_pos hd (Nat.two_pow_pos p))
  have := h.1
  rw [Nat.pow_add] at this
  linarith

theorem StepsOf.le_divideToEven (h : StepsOf n d p) (hd : 0 < d) :
    p = 0 ∨ 2 ^ 52 ≤ divideToEven n (d * 2 ^ p) := by
  refine h.2.imp_right fun hlow => ?_
  apply Binary64.le_divideToEven (Nat.mul_pos hd (Nat.two_pow_pos p))
  rw [Nat.pow_add] at hlow
  linarith

theorem StepsOf.roundUnits_eq (h : StepsOf n d p) (hd : 0 < d) :
    roundUnits n d = min (p * 2 ^ 52 + divideToEven n (d * 2 ^ p)) infinityMagnitude := by
  rw [h.unique (stepsOf_log2 n hd) hd]
  rfl

theorem roundUnits_le_infinityMagnitude (n d : Nat) : roundUnits n d ≤ infinityMagnitude :=
  Nat.min_le_right _ _

theorem roundUnits_mono (hd : 0 < d) (hd' : 0 < d') (hle : n * d' ≤ n' * d) :
    roundUnits n d ≤ roundUnits n' d' := by
  have h := stepsOf_log2 n hd
  have h' := stepsOf_log2 n' hd'
  have hp := h.le h' hd hle
  rw [h.roundUnits_eq hd, h'.roundUnits_eq hd']
  generalize (n / d).log2 - 52 = p at *
  generalize (n' / d').log2 - 52 = p' at *
  apply min_le_min_right
  rcases Nat.lt_or_eq_of_le hp with hlt | rfl
  · -- A significand of longer steps is at least `2 ^ 52`, where the shorter steps end.
    have hsignificand := h.divideToEven_le hd
    have hsignificand' := (h'.le_divideToEven hd').resolve_left (by omega)
    have hsteps := Nat.mul_le_mul_right (2 ^ 52) hlt
    rw [Nat.succ_mul] at hsteps
    omega
  · apply Nat.add_le_add_left
    apply divideToEven_mono (Nat.mul_pos hd (Nat.two_pow_pos p))
      (Nat.mul_pos hd' (Nat.two_pow_pos p))
    calc n * (d' * 2 ^ p) = n * d' * 2 ^ p := (Nat.mul_assoc _ _ _).symm
      _ ≤ n' * d * 2 ^ p := Nat.mul_le_mul_right _ hle
      _ = n' * (d * 2 ^ p) := Nat.mul_assoc _ _ _

/-! ## Units -/

@[simp]
theorem unitsOf_zero : unitsOf 0 = 0 := rfl

/-- The magnitude with a significand `k` that counts steps of `2 ^ p` units. -/
theorem unitsOf_add (hk : k ≤ 2 ^ 53) (hp : p = 0 ∨ 2 ^ 52 ≤ k) :
    unitsOf (p * 2 ^ 52 + k) = k * 2 ^ p := by
  unfold unitsOf
  by_cases hsmall : k < 2 ^ 52
  · obtain rfl := hp.resolve_right (by omega)
    rw [if_pos (by omega)]
    omega
  · rw [if_neg (by omega)]
    by_cases hcarry : k = 2 ^ 53
    · subst hcarry
      have hdiv : (p * 2 ^ 52 + 2 ^ 53) / 2 ^ 52 = p + 2 := by omega
      have hmod : (p * 2 ^ 52 + 2 ^ 53) % 2 ^ 52 = 0 := by omega
      rw [hdiv, hmod, Nat.add_zero]
      have hexp : p + 2 - 1 = p + 1 := by omega
      rw [hexp, Nat.pow_succ]
      ring
    · have hdiv : (p * 2 ^ 52 + k) / 2 ^ 52 = p + 1 := by omega
      have hmod : (p * 2 ^ 52 + k) % 2 ^ 52 = k - 2 ^ 52 := by omega
      rw [hdiv, hmod, Nat.add_sub_cancel' (by omega), Nat.add_sub_cancel]

/-- Every magnitude has a significand and a length of steps. -/
theorem exists_steps (m : Nat) :
    ∃ p k, m = p * 2 ^ 52 + k ∧ k < 2 ^ 53 ∧ (p = 0 ∨ 2 ^ 52 ≤ k) := by
  by_cases hsmall : m < 2 ^ 52
  · exact ⟨0, m, by omega, by omega, .inl rfl⟩
  · exact ⟨m / 2 ^ 52 - 1, m % 2 ^ 52 + 2 ^ 52, by omega, by omega, .inr (by omega)⟩

theorem unitsOf_mono (h : m ≤ m') : unitsOf m ≤ unitsOf m' := by
  obtain ⟨p, k, rfl, hk, hp⟩ := exists_steps m
  obtain ⟨p', k', rfl, hk', hp'⟩ := exists_steps m'
  rw [unitsOf_add hk.le hp, unitsOf_add hk'.le hp']
  rcases Nat.lt_trichotomy p p' with hlt | rfl | hgt
  · have hlong : 2 ^ 52 ≤ k' := hp'.resolve_left (by omega)
    calc k * 2 ^ p ≤ 2 ^ 53 * 2 ^ p := Nat.mul_le_mul_right _ hk.le
      _ = 2 ^ 52 * 2 ^ (p + 1) := by rw [Nat.pow_succ]; ring
      _ ≤ k' * 2 ^ p' := Nat.mul_le_mul hlong (Nat.pow_le_pow_right (by decide) hlt)
  · exact Nat.mul_le_mul_right _ (by omega)
  · have hlong : 2 ^ 52 ≤ k := hp.resolve_left (by omega)
    omega

/-- Rounding leaves the magnitudes alone. -/
theorem roundUnits_unitsOf_mul (hm : m ≤ infinityMagnitude) (hd : 0 < d) :
    roundUnits (unitsOf m * d) d = m := by
  obtain ⟨p, k, rfl, hk, hp⟩ := exists_steps m
  rw [unitsOf_add hk.le hp]
  have hsteps : StepsOf (k * 2 ^ p * d) d p := by
    constructor
    · calc k * 2 ^ p * d < 2 ^ 53 * 2 ^ p * d :=
            Nat.mul_lt_mul_of_pos_right
              (Nat.mul_lt_mul_of_pos_right hk (Nat.two_pow_pos p)) hd
        _ = d * 2 ^ (p + 53) := by rw [Nat.pow_add]; ring
    · rcases hp with hzero | hlong
      · exact .inl hzero
      · right
        calc d * 2 ^ (p + 52) = 2 ^ 52 * 2 ^ p * d := by rw [Nat.pow_add]; ring
          _ ≤ k * 2 ^ p * d := Nat.mul_le_mul_right _ (Nat.mul_le_mul_right _ hlong)
  have hexact : divideToEven (k * 2 ^ p * d) (d * 2 ^ p) = k := by
    have hproduct : k * 2 ^ p * d = k * (d * 2 ^ p) := by ring
    rw [hproduct]
    exact divideToEven_mul k (Nat.mul_pos hd (Nat.two_pow_pos p))
  rw [hsteps.roundUnits_eq hd, hexact, Nat.min_eq_left hm]

/-- What a magnitude bounds, it bounds after rounding. -/
theorem roundUnits_le (hm : m ≤ infinityMagnitude) (hd : 0 < d) (h : n ≤ unitsOf m * d) :
    roundUnits n d ≤ m := by
  rw [← roundUnits_unitsOf_mul hm hd]
  exact roundUnits_mono hd hd (Nat.mul_le_mul_right d h)

theorem roundUnits_zero (hd : 0 < d) : roundUnits 0 d = 0 :=
  Nat.le_zero.mp (roundUnits_le (Nat.zero_le _) hd (Nat.zero_le _))

theorem unitsOf_roundUnits_le (h : StepsOf n d p) (hd : 0 < d) :
    unitsOf (roundUnits n d) ≤ divideToEven n (d * 2 ^ p) * 2 ^ p := by
  rw [h.roundUnits_eq hd]
  rw [← unitsOf_add (h.divideToEven_le hd) (h.le_divideToEven hd)]
  exact unitsOf_mono (Nat.min_le_left _ _)

/-- Rounding adds one part in `2 ^ 53` at most to a number with a significand of 53 bits. -/
theorem unitsOf_roundUnits_mul_le (hd : 0 < d) (h : d * 2 ^ 52 ≤ n) :
    unitsOf (roundUnits n d) * d * 2 ^ 53 ≤ n * (2 ^ 53 + 1) := by
  have hsteps := stepsOf_log2 n hd
  generalize (n / d).log2 - 52 = p at hsteps
  have hround := unitsOf_roundUnits_le hsteps hd
  have hhalf := two_mul_divideToEven_le n (d * 2 ^ p)
  have hlong : d * 2 ^ p * 2 ^ 52 ≤ n := by
    rcases hsteps.2 with rfl | hlow
    · simpa using h
    · rwa [Nat.mul_assoc, ← Nat.pow_add]
  calc unitsOf (roundUnits n d) * d * 2 ^ 53
      ≤ divideToEven n (d * 2 ^ p) * 2 ^ p * d * 2 ^ 53 :=
        Nat.mul_le_mul_right _ (Nat.mul_le_mul_right _ hround)
    _ = 2 * (divideToEven n (d * 2 ^ p) * (d * 2 ^ p)) * 2 ^ 52 := by ring
    _ ≤ (2 * n + d * 2 ^ p) * 2 ^ 52 := Nat.mul_le_mul_right _ hhalf
    _ ≤ n * (2 ^ 53 + 1) := by linarith

end Binary64
end OrderedQuery
