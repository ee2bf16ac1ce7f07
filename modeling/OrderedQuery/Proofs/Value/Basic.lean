import OrderedQuery.Proofs.Binary64.Integers
import OrderedQuery.Proofs.Key.Order

/-!
# Scalar values

Values of comparable types are compared unless one of them is a NaN, and the answer in the other
direction is the opposite one.  Among values of one type the order is transitive.
-/

namespace OrderedQuery

namespace Binary64

variable {x y z : Binary64}

theorem isNaN_of_compare (h : x.compare y = none) : x.isNaN = true ∨ y.isNaN = true := by
  rw [compare] at h
  split at h
  · rename_i hnan
    exact (Bool.or_eq_true _ _).mp hnan
  · cases h

theorem compare_eq_none (h : x.isNaN = true ∨ y.isNaN = true) : x.compare y = none := by
  rw [compare, if_pos ((Bool.or_eq_true _ _).mpr h)]

theorem compare_eq_ordinal {o : Ordering} (h : x.compare y = some o) :
    Ord.compare x.ordinal y.ordinal = o := by
  rw [compare] at h
  split at h
  · cases h
  · exact Option.some.inj h

theorem compare_swap (x y : Binary64) : y.compare x = (x.compare y).map Ordering.swap := by
  rw [compare, compare, Bool.or_comm]
  split
  · rfl
  · rw [Option.map_some, Std.OrientedOrd.eq_swap (a := y.ordinal)]

end Binary64

/-- What is better than a second thing is better than a third one that is no better than the
second. -/
theorem cmp_better {α : Type} {cmp : α → α → Ordering} [Std.TransCmp cmp] {a b c : α}
    {better : Ordering} (hbetter : better ≠ .eq) (hab : cmp a b = better)
    (hcb : cmp c b ≠ better) : cmp a c = better := by
  have hswap : cmp b c = (cmp c b).swap := Std.OrientedCmp.eq_swap
  cases better with
  | lt =>
      have hbc : (cmp b c).isLE := by
        rw [hswap]
        cases hc : cmp c b with
        | lt => exact absurd hc hcb
        | eq | gt => rfl
      exact Std.TransCmp.lt_of_lt_of_isLE hab hbc
  | eq => exact absurd rfl hbetter
  | gt =>
      have hbc : (cmp b c).isGE := by
        rw [hswap]
        cases hc : cmp c b with
        | gt => exact absurd hc hcb
        | eq | lt => rfl
      exact Std.TransCmp.gt_of_gt_of_isGE hab hbc

namespace Value

variable {u v w : Value} {type : ValueType}

/-- The value is a float that is not a number. -/
def IsNaN : Value → Prop
  | float x => x.isNaN = true
  | _ => False

theorem eq_int_of_type? (h : v.type? = some .int) : ∃ i, v = .int i := by
  cases v <;> cases h
  exact ⟨_, rfl⟩

theorem eq_float_of_type? (h : v.type? = some .float) : ∃ x, v = .float x := by
  cases v <;> cases h
  exact ⟨_, rfl⟩

/-! ## Integers of 64 bits -/

theorem int64?_eq_some_iff {n : Int} {a : Int64} : int64? n = some a ↔ a.toInt = n := by
  unfold int64?
  constructor
  · intro h
    split at h
    · rename_i hrange
      rw [← Option.some.inj h]
      exact Int64.toInt_ofInt_of_le hrange.1 hrange.2
    · cases h
  · rintro rfl
    rw [if_pos ⟨a.le_toInt, a.toInt_lt⟩, Int64.ofInt_toInt]

/-- An integer is left out if it does not fit in 64 bits. -/
theorem int64?_eq_none_iff {n : Int} :
    int64? n = none ↔ n < Int64.minValue.toInt ∨ Int64.maxValue.toInt < n := by
  have hmin : Int64.minValue.toInt = -9223372036854775808 := rfl
  have hmax : Int64.maxValue.toInt = 9223372036854775807 := rfl
  rw [int64?, hmin, hmax]
  split
  · rename_i hfits
    simp only [reduceCtorEq, false_iff]
    omega
  · rename_i hfits
    simp only [true_iff]
    omega

/-! ## Comparison -/

/-- Values of comparable types are compared unless one is a NaN. -/
theorem isNaN_of_compare {l r : Value} {a b : ValueType} (hl : l.type? = some a)
    (hr : r.type? = some b) (hab : a.comparable b = true) (h : l.compare r = none) :
    l.IsNaN ∨ r.IsNaN := by
  cases l <;> cases r <;> cases hl <;> cases hr
  case float.float x y => exact Binary64.isNaN_of_compare h
  case int.float i y =>
    refine .inr ((Binary64.isNaN_of_compare h).resolve_left fun hnan => ?_)
    rw [Binary64.isNaN_ofInt] at hnan
    cases hnan
  case float.int x i =>
    refine .inl ((Binary64.isNaN_of_compare h).resolve_right fun hnan => ?_)
    rw [Binary64.isNaN_ofInt] at hnan
    cases hnan
  all_goals first | exact absurd hab (by decide) | cases h

/-- Apart from floats, values of one type are ordered as keys are. -/
theorem compare_eq_totalCompare (hv : v.type? = some type) (hw : w.type? = some type)
    (htype : type ≠ .float) : v.compare w = some (v.totalCompare w) := by
  cases v <;> cases hv <;> cases w <;> cases hw
  case float.refl.float.refl => exact absurd rfl htype
  all_goals rfl

/-- The answer in the other direction is the opposite one. -/
theorem compare_swap (u v : Value) : v.compare u = (u.compare v).map Ordering.swap := by
  cases u <;> cases v
  case float.float x y => exact Binary64.compare_swap x y
  case int.float i y => exact Binary64.compare_swap _ y
  case float.int x i => exact Binary64.compare_swap x _
  case bool.bool => exact congrArg some Std.OrientedOrd.eq_swap
  case int.int => exact congrArg some Std.OrientedOrd.eq_swap
  case string.string => exact congrArg some Std.OrientedOrd.eq_swap
  case bytes.bytes => exact congrArg some Std.OrientedOrd.eq_swap
  all_goals rfl

theorem compare_eq_none_iff (hu : u.type? = some type) (hv : v.type? = some type) :
    u.compare v = none ↔ u.IsNaN ∨ v.IsNaN := by
  constructor
  · apply isNaN_of_compare hu hv
    rw [ValueType.comparable, decide_eq_true rfl, Bool.true_or]
  · intro h
    cases u <;> cases v <;> cases hu <;> cases hv
    case float.float.refl.refl x y => exact Binary64.compare_eq_none h
    all_goals exact absurd h (by simp [IsNaN])

theorem compare_better {better o : Ordering} (hu : u.type? = some type)
    (hv : v.type? = some type) (hw : w.type? = some type) (hbetter : better ≠ .eq)
    (huv : u.compare v = some better) (hwv : w.compare v = some o) (ho : o ≠ better) :
    u.compare w = some better := by
  by_cases htype : type = .float
  · subst htype
    obtain ⟨x, rfl⟩ := eq_float_of_type? hu
    obtain ⟨y, rfl⟩ := eq_float_of_type? hv
    obtain ⟨z, rfl⟩ := eq_float_of_type? hw
    have hxy := Binary64.compare_eq_ordinal huv
    have hzy := Binary64.compare_eq_ordinal hwv
    cases hxz : (float x).compare (float z) with
    | none =>
        rcases Binary64.isNaN_of_compare hxz with hx | hz
        · rw [Value.compare, Binary64.compare_eq_none (.inl hx)] at huv
          cases huv
        · rw [Value.compare, Binary64.compare_eq_none (.inl hz)] at hwv
          cases hwv
    | some p =>
        rw [Option.some.injEq, ← Binary64.compare_eq_ordinal hxz]
        exact cmp_better hbetter hxy (hzy ▸ ho)
  · rw [compare_eq_totalCompare hu hv htype, Option.some.injEq] at huv
    rw [compare_eq_totalCompare hw hv htype, Option.some.injEq] at hwv
    rw [compare_eq_totalCompare hu hw htype, Option.some.injEq]
    exact cmp_better hbetter huv (hwv ▸ ho)

end Value
end OrderedQuery
