import OrderedQuery.Proofs.Store.EmptyRanges
import OrderedQuery.Proofs.Store.Table

/-!
# Ranges cut at a key

A scan that resumes after a key puts the key in the place of the end of its range that it would
come to first, and looks at the other end alone.  The keys it can reach are therefore those of
the range behind the key if no key behind it lies in front of the range
(`KeyRange.after_contains_of_startsBy`), for instance if the key itself lies in the range.
-/

namespace OrderedQuery

namespace Direction

instance (direction : Direction) (a b : Bytes) : Decidable (direction.Before a b) :=
  match direction with
  | forward => inferInstanceAs (Decidable (a < b))
  | backward => inferInstanceAs (Decidable (b < a))

theorem Before.trans {direction : Direction} {a b c : Bytes} (hab : direction.Before a b)
    (hbc : direction.Before b c) : direction.Before a c := by
  cases direction with
  | forward => exact List.lt_trans hab hbc
  | backward => exact List.lt_trans hbc hab

theorem Before.asymm {direction : Direction} {a b : Bytes} (h : direction.Before a b) :
    ¬ direction.Before b a :=
  fun h' => (h.trans h').ne rfl

end Direction

namespace KeyRange

/-- `k` is on the right side of the end that a scan comes to first. -/
def admitsFirst (r : KeyRange) : Direction → Bytes → Bool
  | .forward, k => r.low.admitsAbove k
  | .backward, k => r.high.admitsBelow k

/-- `k` is on the right side of the end that a scan comes to last. -/
def admitsLast (r : KeyRange) : Direction → Bytes → Bool
  | .forward, k => r.high.admitsBelow k
  | .backward, k => r.low.admitsAbove k

theorem contains_eq (r : KeyRange) (direction : Direction) (k : Bytes) :
    r.contains k = (r.admitsFirst direction k && r.admitsLast direction k) := by
  cases direction with
  | forward => rfl
  | backward => exact Bool.and_comm _ _

theorem after_contains (r : KeyRange) (key : Bytes) (direction : Direction) (k : Bytes) :
    (r.after (some key) direction).contains k =
      (r.admitsLast direction k && decide (direction.Before key k)) := by
  cases direction with
  | forward => exact Bool.and_comm _ _
  | backward => rfl

/-- No key behind `key` lies in front of the range. -/
def StartsBy (r : KeyRange) (direction : Direction) (key : Bytes) : Prop :=
  ∀ k, direction.Before key k → r.admitsFirst direction k

theorem startsBy_of_admitsFirst {r : KeyRange} {direction : Direction} {key : Bytes}
    (h : r.admitsFirst direction key) : r.StartsBy direction key := by
  intro k hk
  cases direction with
  | forward => exact Bound.admitsAbove_of_le h (List.le_of_lt hk)
  | backward => exact Bound.admitsBelow_of_le h (List.le_of_lt hk)

theorem startsBy_of_contains {r : KeyRange} {key : Bytes} (h : r.contains key)
    (direction : Direction) : r.StartsBy direction key := by
  rw [contains_eq r direction, Bool.and_eq_true] at h
  exact startsBy_of_admitsFirst h.1

/-- The keys behind a key that is not in front of the range are those of the range. -/
theorem after_contains_of_startsBy {r : KeyRange} {direction : Direction} {key : Bytes}
    (h : r.StartsBy direction key) (k : Bytes) :
    (r.after (some key) direction).contains k =
      (r.contains k && decide (direction.Before key k)) := by
  rw [after_contains, contains_eq r direction]
  by_cases hk : direction.Before key k
  · rw [h k hk, Bool.true_and]
  · rw [decide_eq_false hk, Bool.and_false, Bool.and_false]

theorem after_contains_iff {r : KeyRange} {resume : Option Bytes}
    (h : ∀ j ∈ resume, r.contains j) (direction : Direction) (k : Bytes) :
    (r.after resume direction).contains k ↔
      r.contains k ∧ ∀ j ∈ resume, direction.Before j k := by
  cases resume with
  | none => cases direction <;> simp [after]
  | some j =>
      have hstarts := startsBy_of_contains (h j rfl) direction
      rw [after_contains_of_startsBy hstarts, Bool.and_eq_true, decide_eq_true_eq]
      simp

end KeyRange
end OrderedQuery
