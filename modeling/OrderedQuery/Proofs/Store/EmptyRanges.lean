import OrderedQuery.Store.Request
import OrderedQuery.Proofs.Bytes.Order

/-!
# Ranges without keys

`KeyRange.isEmpty` looks at the two bounds alone.  It finds exactly the ranges that an ordered map
refuses (`KeyRange.not_isEmpty_iff_inOrder`), and no key lies in any of them.  Of the other
ranges two kinds hold no key either: nothing lies below the empty string, and nothing between a
string and the next one.

Every lower bound admits a least key, since every string has a next one.  A range therefore holds
a key exactly if its upper bound admits the least key of its lower bound
(`KeyRange.exists_contains_iff_admitsBelow`).
-/

namespace OrderedQuery

namespace Bound

/-- The least key on the right side of a lower bound. -/
def least : Bound → Bytes
  | unbounded => []
  | included k => k
  | excluded k => k ++ [0]

theorem admitsAbove_iff {low : Bound} {k : Bytes} : low.admitsAbove k ↔ low.least ≤ k := by
  cases low with
  | unbounded => simp [admitsAbove, least]
  | included m => simp [admitsAbove, least]
  | excluded m => simp [admitsAbove, least, Bytes.append_zero_le_iff]

/-- What lies above a key on the right side of a lower bound is on the right side as well. -/
theorem admitsAbove_of_le {low : Bound} {j k : Bytes} (hj : low.admitsAbove j) (h : j ≤ k) :
    low.admitsAbove k :=
  admitsAbove_iff.mpr (List.le_trans (admitsAbove_iff.mp hj) h)

theorem admitsBelow_of_le {high : Bound} {j k : Bytes} (hj : high.admitsBelow j) (h : k ≤ j) :
    high.admitsBelow k := by
  cases high with
  | unbounded => rfl
  | included m =>
      have hm : j ≤ m := by simpa [admitsBelow] using hj
      simpa [admitsBelow] using List.le_trans h hm
  | excluded m =>
      have hm : j < m := by simpa [admitsBelow] using hj
      simpa [admitsBelow] using List.lt_of_le_of_lt h hm

end Bound

namespace KeyRange

theorem exists_contains_iff_admitsBelow {r : KeyRange} :
    (∃ k, r.contains k) ↔ r.high.admitsBelow r.low.least := by
  constructor
  · rintro ⟨k, hk⟩
    rw [contains, Bool.and_eq_true, Bound.admitsAbove_iff] at hk
    exact Bound.admitsBelow_of_le hk.2 hk.1
  · intro hhigh
    refine ⟨r.low.least, ?_⟩
    rw [contains, Bool.and_eq_true]
    exact ⟨Bound.admitsAbove_iff.mpr (List.le_refl _), hhigh⟩

/-- The ranges below the empty string, and those between a string and the next one. -/
def Gap (r : KeyRange) : Prop :=
  r = ⟨.unbounded, .excluded []⟩ ∨ ∃ key, r = ⟨.excluded key, .excluded (key ++ [0])⟩

/-- A range holds a key unless its bounds cross or it is one of the gaps. -/
theorem exists_contains_iff {r : KeyRange} :
    (∃ k, r.contains k) ↔ ¬r.isEmpty ∧ ¬r.Gap := by
  -- Unless the bounds cross, the least key lies at the upper one at most.  A gap is what is left
  -- where the upper bound excludes that very key.
  rw [exists_contains_iff_admitsBelow]
  obtain ⟨low, high⟩ := r
  cases high with
  | unbounded => cases low <;> simp [isEmpty, Gap, Bound.admitsBelow]
  | included m =>
      rw [Bound.admitsBelow, decide_eq_true_eq]
      cases low with
      | unbounded => simp [isEmpty, Gap, Bound.least]
      | included j => simp [isEmpty, Gap, Bound.least]
      | excluded j => simp [isEmpty, Gap, Bound.least, Bytes.append_zero_le_iff]
  | excluded m =>
      rw [Bound.admitsBelow, decide_eq_true_eq]
      cases low with
      | unbounded => cases m <;> simp [isEmpty, Gap, Bound.least]
      | included j => simp [isEmpty, Gap, Bound.least]
      | excluded j => simp [isEmpty, Gap, Bound.least, Bytes.append_zero_lt_iff]

/-- No key lies between bounds that cross. -/
theorem not_contains_of_isEmpty {r : KeyRange} (h : r.isEmpty) (k : Bytes) :
    ¬r.contains k :=
  fun hk => (exists_contains_iff.mp ⟨k, hk⟩).1 h

/-- Bounds that do not cross are those that the map accepts. -/
theorem not_isEmpty_iff_inOrder {r : KeyRange} : ¬r.isEmpty ↔ r.InOrder := by
  obtain ⟨low, high⟩ := r
  cases low with
  | unbounded => simp [isEmpty, InOrder, Bound.key?]
  | included j =>
      cases high with
      | unbounded => simp [isEmpty, InOrder, Bound.key?]
      | included m => simp [isEmpty, InOrder, Bound.key?]
      | excluded m => simp [isEmpty, InOrder, Bound.key?, Std.lt_iff_le_and_ne]
  | excluded j =>
      cases high with
      | unbounded => simp [isEmpty, InOrder, Bound.key?]
      | included m => simp [isEmpty, InOrder, Bound.key?, Std.lt_iff_le_and_ne]
      | excluded m => simp [isEmpty, InOrder, Bound.key?, Std.lt_iff_le_and_ne]

end KeyRange

namespace Store

theorem within_eq_nil_of_isEmpty {range : KeyRange} (h : range.isEmpty) (s : Store) :
    s.within range = [] := by
  rw [within, List.filter_eq_nil_iff]
  exact fun e _ => KeyRange.not_contains_of_isEmpty h e.1

/-- A scan never asks for a range that the map refuses. -/
theorem scan?_eq_some (s : Store) (table : String) (range : KeyRange)
    (resume : Option Bytes) (direction : Direction) (limit : Nat) :
    s.scan? table range resume direction limit =
      some (s.scan table range resume direction limit) := by
  unfold scan? scan
  by_cases hlimit : limit = 0
  · simp [hlimit]
  by_cases hempty : (Layout.storedRange table range resume direction).isEmpty
  · -- The map is not asked, and it has no entry between bounds that cross.
    rw [within_eq_nil_of_isEmpty hempty]
    cases direction <;> simp [hempty]
  · have hanswer : s.answer? (Layout.storedRange table range resume direction) = some _ :=
      if_pos (KeyRange.not_isEmpty_iff_inOrder.mp hempty)
    cases direction <;> simp [hlimit, hempty, hanswer]

end Store

namespace KeyRange

/-- A range with crossing bounds holds no key, and any other range holds one unless it is a gap.
Bounds that do not cross are in order, so that no scan of any store asks for a range that the map
refuses. -/
theorem isEmpty_exact_but_for_gaps (r : KeyRange) :
    (r.isEmpty → ∀ k, ¬r.contains k) ∧
      (¬r.isEmpty → ((∃ k, r.contains k) ↔ ¬r.Gap)) ∧
      (¬r.isEmpty ↔ r.InOrder) ∧
      ∀ (s : Store) table resume direction limit,
        s.scan? table r resume direction limit =
          some (s.scan table r resume direction limit) :=
  ⟨not_contains_of_isEmpty, fun h => exists_contains_iff.trans (and_iff_right h),
    not_isEmpty_iff_inOrder,
    fun s table resume direction limit => s.scan?_eq_some table r resume direction limit⟩

/-- No key lies between `a` and `a 00`, although these bounds do not cross, but one lies between
`a` and `a 01`. -/
theorem isEmpty_exact_but_for_gaps_neighbours :
    let crossed : KeyRange := ⟨.included [0x61], .excluded [0x61]⟩
    let gap : KeyRange := ⟨.excluded [0x61], .excluded [0x61, 0x00]⟩
    let wider : KeyRange := ⟨.excluded [0x61], .excluded [0x61, 0x01]⟩
    (crossed.isEmpty ∧ ∀ k, ¬crossed.contains k) ∧
      (¬gap.isEmpty ∧ gap.InOrder ∧ ¬∃ k, gap.contains k) ∧
      ¬wider.isEmpty ∧ ∃ k, wider.contains k := by
  intro crossed gap wider
  obtain ⟨hnone, -, -, -⟩ := isEmpty_exact_but_for_gaps crossed
  obtain ⟨-, hgap, hordered, -⟩ := isEmpty_exact_but_for_gaps gap
  obtain ⟨-, hwider, -, -⟩ := isEmpty_exact_but_for_gaps wider
  have hopen : ¬gap.isEmpty := by decide
  have hempty : ¬∃ k, gap.contains k := fun hk => (hgap hopen).mp hk (.inr ⟨[0x61], rfl⟩)
  have hnot : ¬wider.Gap := by simp [wider, Gap]
  exact ⟨⟨by decide, hnone (by decide)⟩, ⟨hopen, hordered.mp hopen, hempty⟩, by decide,
    (hwider (by decide)).mpr hnot⟩

end KeyRange
end OrderedQuery
