import OrderedQuery.Proofs.Key.RoundTrip
import Mathlib.Data.List.Forall2

/-!
# Values that keys do not tell apart

Two values are equal in the total order exactly if the same value is read back in place of both,
and columns are equal if this holds of each.
-/

namespace OrderedQuery
namespace Value

theorem ascending_canonical (v : Value) : Key.ascending v.canonical = Key.ascending v := by
  cases v with
  | float x =>
      rw [canonical, Key.ascending_eq_cons, Key.ascending_eq_cons]
      have hkey : x.canonical.orderKey = x.orderKey := by
        rw [Binary64.canonical]
        split
        · rename_i hnan
          rw [Binary64.orderKey, Binary64.orderKey, if_pos hnan, if_pos (by decide)]
        · rfl
      simp [Key.payload, hkey, rank]
  | _ => rfl

@[simp]
theorem totalCompare_canonical (v w : Value) :
    v.canonical.totalCompare w.canonical = v.totalCompare w := by
  rw [totalCompare_eq_compare_ascending, ascending_canonical, ascending_canonical,
    ← totalCompare_eq_compare_ascending]

@[simp]
theorem totalCompare_self (v : Value) : v.totalCompare v = .eq :=
  Std.ReflCmp.compare_self

theorem totalCompare_eq_eq_iff {v w : Value} :
    v.totalCompare w = .eq ↔ v.canonical = w.canonical := by
  constructor
  · intro h
    have hsettled := Key.settled?_ascending v w
    rw [h] at hsettled
    have hread := Key.decodeAscending_ascending v []
    rw [Bytes.eq_of_settled? hsettled, Key.decodeAscending_ascending] at hread
    exact (Prod.mk.inj (Except.ok.inj hread)).1.symm
  · intro h
    rw [← totalCompare_canonical, h, totalCompare_self]

theorem forall₂_totalCompare_eq_iff {vs ws : List Value} :
    List.Forall₂ (fun v w => v.totalCompare w = .eq) vs ws ↔
      vs.map canonical = ws.map canonical := by
  rw [← List.forall₂_eq_eq_eq, List.forall₂_map_left_iff, List.forall₂_map_right_iff]
  simp only [totalCompare_eq_eq_iff]

theorem directedCompare_eq_eq_iff {descending : Bool} {v w : Value} :
    v.directedCompare descending w = .eq ↔ v.totalCompare w = .eq := by
  cases descending with
  | false => rfl
  | true => exact Ordering.swap_eq_eq

end Value

namespace Key

theorem compareColumns_map_canonical (directions : List Bool) (vs ws : List Value) :
    compareColumns directions (vs.map Value.canonical) (ws.map Value.canonical) =
      compareColumns directions vs ws := by
  induction directions generalizing vs ws with
  | nil => cases vs <;> cases ws <;> rfl
  | cons d directions ih =>
      cases vs with
      | nil => cases ws <;> rfl
      | cons v vs =>
          cases ws with
          | nil => rfl
          | cons w ws =>
              rw [List.map_cons, List.map_cons, compareColumns, compareColumns, ih]
              simp [Value.directedCompare]

theorem compareColumns_self (directions : List Bool) (vs : List Value) :
    compareColumns directions vs vs = .eq := by
  induction directions generalizing vs with
  | nil => cases vs <;> rfl
  | cons d directions ih =>
      cases vs with
      | nil => rfl
      | cons v vs =>
          rw [compareColumns, ih]
          cases d <;> simp [Value.directedCompare]

/-- Columns are equal one by one or not at all, whatever their directions. -/
theorem compareColumns_eq_eq_iff {directions : List Bool} {vs ws : List Value}
    (hlength : vs.length = ws.length) (hdirections : vs.length ≤ directions.length) :
    compareColumns directions vs ws = .eq ↔ vs.map Value.canonical = ws.map Value.canonical := by
  rw [← Value.forall₂_totalCompare_eq_iff]
  induction directions generalizing vs ws with
  | nil =>
      obtain rfl : vs = [] := List.eq_nil_of_length_eq_zero (by simpa using hdirections)
      obtain rfl : ws = [] := List.eq_nil_of_length_eq_zero hlength.symm
      exact iff_of_true rfl .nil
  | cons d directions ih =>
      cases vs with
      | nil =>
          obtain rfl : ws = [] := List.eq_nil_of_length_eq_zero hlength.symm
          exact iff_of_true rfl .nil
      | cons v vs =>
          cases ws with
          | nil => simp at hlength
          | cons w ws =>
              rw [compareColumns, Ordering.then_eq_eq, Value.directedCompare_eq_eq_iff,
                ih (by simpa using hlength) (by simpa using hdirections), List.forall₂_cons]

end Key
end OrderedQuery
