import OrderedQuery.Plan.Sorting
import OrderedQuery.Proofs.Key.Order

/-!
# The order of composite keys

Byte strings of composite keys are ordered as the columns they encode, each column in its own
direction.  A sort compares rows by columns too, so it orders them as their sort fields would be
ordered in an index.
-/

namespace OrderedQuery

namespace Binary64

theorem orderKey_of_isNaN {x : Binary64} (h : x.isNaN = true) : x.orderKey = 2 ^ 64 - 1 := by
  rw [orderKey, if_pos h]

/-- Numbers come before the place of the NaNs. -/
theorem orderKey_lt_of_not_isNaN {x : Binary64} (h : x.isNaN = false) :
    x.orderKey < 2 ^ 64 - 1 := by
  have hbits := x.bits.toNat_lt
  have hmagnitude : x.magnitude ≤ infinityMagnitude := by simpa [isNaN] using h
  have hinfinity : infinityMagnitude < 2 ^ 63 - 1 := by decide
  rw [magnitude] at hmagnitude
  rw [orderKey, if_neg (by simp [h])]
  by_cases hsign : x.isNegative
  · have hlarge : 2 ^ 63 ≤ x.bits.toNat := by simpa [isNegative] using hsign
    rw [if_pos hsign]
    omega
  · have hsmall : x.bits.toNat < 2 ^ 63 := by simpa [isNegative] using hsign
    rw [Nat.mod_eq_of_lt hsmall] at hmagnitude
    rw [if_neg hsign]
    omega

end Binary64

namespace Value

theorem totalCompare_null_left {v : Value} (h : v ≠ .null) : null.totalCompare v = .lt := by
  have hpos : 0 < v.rank := by
    cases v with
    | null => exact absurd rfl h
    | _ => simp [rank]
  have hrank : null.rank ≠ v.rank := Nat.ne_of_lt hpos
  rw [Key.totalCompare_of_rank_ne hrank]
  exact Std.compare_eq_lt.mpr hpos

/-- NaNs come after all other floats, and none of them before another. -/
theorem totalCompare_nan_right {x : Binary64} (h : x.isNaN = true) (y : Binary64) :
    (float y).totalCompare (float x) = if y.isNaN then .eq else .lt := by
  show Ord.compare y.orderKey x.orderKey = _
  rw [Binary64.orderKey_of_isNaN h]
  by_cases hy : y.isNaN = true
  · rw [if_pos hy, Binary64.orderKey_of_isNaN hy, Std.ReflOrd.compare_self]
  · rw [if_neg hy]
    exact Std.compare_eq_lt.mpr (Binary64.orderKey_lt_of_not_isNaN (by simpa using hy))

end Value

namespace Key

open Bytes

/-- Values without an order between them have one encoding, and only such values do. -/
theorem encode_eq_encode_iff (descending : Bool) (v w : Value) :
    encode descending v = encode descending w ↔ v.totalCompare w = .eq := by
  have hcompare := compare_of_settled? (settled?_encode descending v w)
  rw [← Std.compare_eq_iff_eq (α := Bytes), hcompare, Value.directedCompare]
  cases descending with
  | false => rfl
  | true => simp

end Key

namespace Sorting

/-- The fields by which a sort compares a row, each with its direction. -/
def columns (keys : List SortKey) (row : Row) : List (Value × Bool) :=
  keys.filterMap fun k => (row.value? k.field).map fun v => (v, !k.ascending)

theorem compareKey_of_some {k : SortKey} {a b : Row} {v w : Value}
    (ha : a.value? k.field = some v) (hb : b.value? k.field = some w) :
    compareKey k a b = v.directedCompare (!k.ascending) w := by
  rw [compareKey, ha, hb, Value.directedCompare]
  cases k.ascending with
  | false => rfl
  | true => rfl

/-- A sort orders two rows as the keys made of their sort fields are ordered. -/
theorem compareBy_eq_compare_columns {keys : List SortKey} {a b : Row}
    (hfields : ∀ k ∈ keys, (a.value? k.field).isSome = (b.value? k.field).isSome) :
    compareBy keys a b =
      Ord.compare (Key.encodeAll (columns keys a)) (Key.encodeAll (columns keys b)) := by
  induction keys with
  | nil => rfl
  | cons k keys ih =>
      have hrest := ih fun k' hk' => hfields k' (List.mem_cons_of_mem k hk')
      have hfield := hfields k List.mem_cons_self
      rw [compareBy, hrest]
      cases ha : a.value? k.field with
      | none =>
          have hb : b.value? k.field = none := by
            rw [ha] at hfield
            exact Option.isNone_iff_eq_none.mp (by simpa using hfield.symm)
          have hskip (row : Row) (hrow : row.value? k.field = none) :
              columns (k :: keys) row = columns keys row := by
            simp [columns, hrow]
          have hequal : compareKey k a b = .eq := by rw [compareKey, ha]
          rw [hskip a ha, hskip b hb, hequal, Ordering.eq_then]
      | some v =>
          obtain ⟨w, hb⟩ : ∃ w, b.value? k.field = some w := by
            rw [ha] at hfield
            exact Option.isSome_iff_exists.mp hfield.symm
          have htake (row : Row) (u : Value) (hrow : row.value? k.field = some u) :
              columns (k :: keys) row = (u, !k.ascending) :: columns keys row := by
            simp [columns, hrow]
          rw [htake a v ha, htake b w hb, Key.encodeAll_cons, Key.encodeAll_cons,
            compareKey_of_some ha hb]
          exact (Bytes.compare_append (Key.settled?_encode (!k.ascending) v w) _ _).symm

end Sorting

/-- Composite keys are ordered as byte strings the way their columns are, one after the other
and each in its direction, and so are rows by a sort.  The order of a column is a total preorder
in which values are equal if they have one encoding: null comes first, `-0` before `0`, and all
NaNs together behind the other floats. -/
theorem Key.compare_encodeAll :
    (∀ (directions : List Bool) (vs ws : List Value),
      vs.length = directions.length → ws.length = directions.length →
        compare (encodeAll (vs.zip directions)) (encodeAll (ws.zip directions)) =
          compareColumns directions vs ws) ∧
      (∀ (s : Sorting) (a b : Row),
        (∀ k ∈ s.keys, (a.value? k.field).isSome = (b.value? k.field).isSome) →
          s.compare a b =
            compare (encodeAll (Sorting.columns s.keys a)) (encodeAll (Sorting.columns s.keys b))) ∧
      Std.TransCmp Value.totalCompare ∧
      (∀ (descending : Bool) (v w : Value),
        encode descending v = encode descending w ↔ v.totalCompare w = .eq) ∧
      (∀ v : Value, v ≠ .null → Value.null.totalCompare v = .lt) ∧
      (∀ x y : Binary64, x.isNaN = true →
        (Value.float y).totalCompare (.float x) = if y.isNaN then .eq else .lt) ∧
      (Value.float (.zero true)).totalCompare (.float (.zero false)) = .lt := by
  refine ⟨?_, ?_, inferInstance, encode_eq_encode_iff, ?_, ?_, by decide⟩
  · intro directions vs ws hvs hws
    exact Bytes.compare_of_settled?
      (settled?_encodeAll (hvs.trans hws.symm) (Nat.le_of_eq hvs))
  · intro s a b hfields
    exact Sorting.compareBy_eq_compare_columns hfields
  · intro v hv
    exact Value.totalCompare_null_left hv
  · intro x y hx
    exact Value.totalCompare_nan_right hx y

/-- In a descending column a byte string comes behind those that it begins, whatever follows in
the next column. -/
theorem Key.compare_encodeAll_extended :
    let type : RowType := .ofFields [.bytes, .int]
    let a : Row := ⟨type, [.bytes [1], .int 7], rfl⟩
    let b : Row := ⟨type, [.bytes [1, 0], .int (-7)], rfl⟩
    let s : Sorting := ⟨[⟨0, false⟩, ⟨1, true⟩], .preserve, 2⟩
    compare (encodeAll (a.values.zip [true, false])) (encodeAll (b.values.zip [true, false])) =
        .gt ∧
      s.compare a b =
        compare (encodeAll (Sorting.columns s.keys a)) (encodeAll (Sorting.columns s.keys b)) ∧
      Value.null.totalCompare (.bool false) = .lt ∧
      (Value.float (.infinity false)).totalCompare (.float .nan) = .lt := by
  intro type a b s
  obtain ⟨hcolumns, hsort, -, -, hnull, hnan, -⟩ := compare_encodeAll
  refine ⟨?_, hsort s a b (by decide), hnull _ (by decide), hnan .nan _ (by decide)⟩
  rw [hcolumns [true, false] a.values b.values rfl rfl]
  decide

end OrderedQuery
