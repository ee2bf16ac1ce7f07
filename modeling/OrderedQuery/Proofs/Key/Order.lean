import OrderedQuery.Key.Encoding
import OrderedQuery.Proofs.Bytes.Order

/-!
# The order of sortable encodings

Encodings are code words: two of them are always settled, and they are settled the way
`Value.totalCompare` orders their values, reversed in a descending column.  Concatenated
encodings of several columns are therefore ordered lexicographically, and whatever follows
them matters only if all columns are equal.
-/

namespace OrderedQuery

namespace Bytes

theorem settled?_escape (p q : Bytes) :
    settled? (Key.escape p) (Key.escape q) = some (compare p q) := by
  induction p generalizing q with
  | nil =>
      cases q with
      | nil => simp [Key.escape, settled?]
      | cons b q =>
          rw [List.compare_nil_cons, Key.escape, Key.escape]
          by_cases hb : b = 0
          · rw [if_pos hb, settled?_cons_self, settled?_cons_of_ne (by decide)]
            rfl
          · rw [if_neg hb, settled?_cons_of_ne (Ne.symm hb)]
            exact congrArg some (Std.compare_eq_lt.mpr (UInt8.pos_iff_ne_zero.mpr hb))
  | cons a p ih =>
      cases q with
      | nil =>
          rw [List.compare_cons_nil, Key.escape, Key.escape]
          by_cases ha : a = 0
          · rw [if_pos ha, settled?_cons_self, settled?_cons_of_ne (by decide)]
            rfl
          · rw [if_neg ha, settled?_cons_of_ne ha]
            exact congrArg some (Std.compare_eq_gt.mpr (UInt8.pos_iff_ne_zero.mpr ha))
      | cons b q =>
          rw [compare_cons, Key.escape, Key.escape]
          by_cases hab : a = b
          · subst hab
            rw [Std.ReflOrd.compare_self, Ordering.eq_then]
            split
            · rw [settled?_cons_self, settled?_cons_self, ih]
            · rw [settled?_cons_self, ih]
          · have hne : compare a b ≠ .eq := mt Std.compare_eq_iff_eq.mp hab
            have hthen : (compare a b).then (compare p q) = compare a b := by
              cases hc : compare a b with
              | lt => rfl
              | eq => exact absurd hc hne
              | gt => rfl
            rw [hthen]
            by_cases ha : a = 0
            · have hb : b ≠ 0 := fun hb => hab (ha.trans hb.symm)
              rw [if_pos ha, if_neg hb, ← ha, settled?_cons_of_ne hab]
            · rw [if_neg ha]
              by_cases hb : b = 0
              · rw [if_pos hb, ← hb, settled?_cons_of_ne hab]
              · rw [if_neg hb, settled?_cons_of_ne hab]

end Bytes

namespace Binary64

theorem orderKey_lt (x : Binary64) : x.orderKey < 2 ^ 64 := by
  have hbits := x.bits.toNat_lt
  unfold orderKey
  split
  · decide
  · split
    · omega
    · rename_i hsign
      have hsmall : x.bits.toNat < 2 ^ 63 := by simpa [isNegative] using hsign
      omega

end Binary64

namespace Value

/-- An integer shifted so that the least one is `0`. -/
def shifted (i : Int64) : Nat :=
  (i.toInt + 2 ^ 63).toNat

theorem shifted_lt (i : Int64) : shifted i < 2 ^ 64 := by
  have hlow := i.le_toInt
  have hhigh := i.toInt_lt
  unfold shifted
  omega

theorem compare_shifted (i j : Int64) :
    Ord.compare (shifted i) (shifted j) = Ord.compare i.toInt j.toInt := by
  have hi := i.le_toInt
  have hj := j.le_toInt
  unfold shifted
  rcases Int.lt_trichotomy i.toInt j.toInt with h | h | h
  · rw [Std.compare_eq_lt.mpr h, Std.compare_eq_lt]
    omega
  · rw [h, Std.ReflOrd.compare_self, Std.ReflOrd.compare_self]
  · rw [Std.compare_eq_gt.mpr h, Std.compare_eq_gt]
    omega

/-- The order of two values in a column of the given direction. -/
def directedCompare (descending : Bool) (v w : Value) : Ordering :=
  if descending then (v.totalCompare w).swap else v.totalCompare w

end Value

namespace Key

open Bytes

/-- The bytes after the tag of an encoding. -/
def payload : Value → Bytes
  | .null => []
  | .bool b => [if b then 1 else 0]
  | .int i => bigEndian 8 (Value.shifted i)
  | .float x => bigEndian 8 x.orderKey
  | .string s => escape (utf8 s)
  | .bytes b => escape b

theorem ascending_eq_cons (v : Value) :
    ascending v = UInt8.ofNat v.rank :: payload v := by
  cases v <;> rfl

theorem rank_lt (v : Value) : v.rank < 6 := by
  cases v <;> simp [Value.rank]

theorem totalCompare_of_rank_ne {v w : Value} (h : v.rank ≠ w.rank) :
    v.totalCompare w = compare v.rank w.rank := by
  cases v <;> cases w <;> first | rfl | exact absurd rfl h

theorem settled?_payload {v w : Value} (h : v.rank = w.rank) :
    settled? (payload v) (payload w) = some (v.totalCompare w) := by
  cases v with
  | null =>
      cases w with
      | null => rfl
      | _ => simp [Value.rank] at h
  | bool a =>
      cases w with
      | bool b => cases a <;> cases b <;> decide
      | _ => simp [Value.rank] at h
  | int i =>
      cases w with
      | int j =>
          rw [payload, payload, settled?_bigEndian (Value.shifted_lt i) (Value.shifted_lt j),
            Value.compare_shifted]
          rfl
      | _ => simp [Value.rank] at h
  | float x =>
      cases w with
      | float y => exact settled?_bigEndian x.orderKey_lt y.orderKey_lt
      | _ => simp [Value.rank] at h
  | string s =>
      cases w with
      | string t => exact settled?_escape (utf8 s) (utf8 t)
      | _ => simp [Value.rank] at h
  | bytes b =>
      cases w with
      | bytes c => exact settled?_escape b c
      | _ => simp [Value.rank] at h

/-- The bytewise order of encodings is the total order of values. -/
theorem settled?_ascending (v w : Value) :
    settled? (ascending v) (ascending w) = some (v.totalCompare w) := by
  rw [ascending_eq_cons, ascending_eq_cons]
  by_cases h : v.rank = w.rank
  · rw [h, settled?_cons_self, settled?_payload h]
  · have hv := rank_lt v
    have hw := rank_lt w
    have hmod (u : Value) (hu : u.rank < 6) : u.rank % 256 = u.rank :=
      Nat.mod_eq_of_lt (by omega)
    have hne : UInt8.ofNat v.rank ≠ UInt8.ofNat w.rank := by
      intro he
      have hnat := congrArg UInt8.toNat he
      rw [UInt8.toNat_ofNat', UInt8.toNat_ofNat'] at hnat
      omega
    rw [settled?_cons_of_ne hne, compare_ofNat, hmod v hv, hmod w hw,
      totalCompare_of_rank_ne h]

/-- In a descending column the order is reversed. -/
theorem settled?_encode (descending : Bool) (v w : Value) :
    settled? (encode descending v) (encode descending w) =
      some (v.directedCompare descending w) := by
  cases descending with
  | false => exact settled?_ascending v w
  | true =>
      show settled? (complement (ascending v)) (complement (ascending w)) = _
      rw [settled?_complement, settled?_ascending]
      rfl

/-! ## Several columns -/

/-- Lexicographic order of columns, each in the direction it is stored in; `true` stands for
a descending column. -/
def compareColumns : List Bool → List Value → List Value → Ordering
  | descending :: rest, v :: vs, w :: ws =>
      (v.directedCompare descending w).then (compareColumns rest vs ws)
  | _, _, _ => .eq

theorem encodeAll_cons (v : Value) (descending : Bool) (items : List (Value × Bool)) :
    encodeAll ((v, descending) :: items) = encode descending v ++ encodeAll items :=
  rfl

@[simp]
theorem encodeAll_append (items items' : List (Value × Bool)) :
    encodeAll (items ++ items') = encodeAll items ++ encodeAll items' :=
  List.flatMap_append

/-- Composite encodings of the same columns are ordered column by column. -/
theorem settled?_encodeAll {directions : List Bool} {vs ws : List Value}
    (hlength : vs.length = ws.length) (hdirections : vs.length ≤ directions.length) :
    settled? (encodeAll (vs.zip directions)) (encodeAll (ws.zip directions)) =
      some (compareColumns directions vs ws) := by
  induction directions generalizing vs ws with
  | nil =>
      obtain rfl : vs = [] := List.eq_nil_of_length_eq_zero (by simpa using hdirections)
      obtain rfl : ws = [] := List.eq_nil_of_length_eq_zero hlength.symm
      rfl
  | cons descending rest ih =>
      cases vs with
      | nil =>
          obtain rfl : ws = [] := List.eq_nil_of_length_eq_zero hlength.symm
          rfl
      | cons v vs =>
          cases ws with
          | nil => simp at hlength
          | cons w ws =>
              rw [List.zip_cons_cons, List.zip_cons_cons, encodeAll_cons, encodeAll_cons,
                compareColumns]
              exact settled?_append (settled?_encode descending v w)
                (ih (by simpa using hlength) (by simpa using hdirections))

/-- Columns of one direction are compared lexicographically, in that direction. -/
theorem compareColumns_of_all_eq {directions : List Bool} {descending : Bool}
    {vs ws : List Value} (hlength : vs.length = ws.length)
    (hdirections : vs.length ≤ directions.length)
    (hall : ∀ d ∈ directions.take vs.length, d = descending) :
    compareColumns directions vs ws =
      if descending then (vs.compareLex Value.totalCompare ws).swap
      else vs.compareLex Value.totalCompare ws := by
  induction directions generalizing vs ws with
  | nil =>
      obtain rfl : vs = [] := List.eq_nil_of_length_eq_zero (by simpa using hdirections)
      obtain rfl : ws = [] := List.eq_nil_of_length_eq_zero hlength.symm
      cases descending <;> rfl
  | cons d rest ih =>
      cases vs with
      | nil =>
          obtain rfl : ws = [] := List.eq_nil_of_length_eq_zero hlength.symm
          cases descending <;> rfl
      | cons v vs =>
          cases ws with
          | nil => simp at hlength
          | cons w ws =>
              have hd : d = descending := hall d (by simp)
              have hrest := ih (by simpa using hlength) (by simpa using hdirections)
                fun d' hd' => hall d' (by simp [hd'])
              rw [compareColumns, hrest, hd, List.compareLex_cons_cons,
                Value.directedCompare]
              cases descending with
              | false => rfl
              | true => simp [Ordering.swap_then]

end Key

namespace Value

/-- The total order of values is that of their encodings. -/
theorem totalCompare_eq_compare_ascending (v w : Value) :
    v.totalCompare w = Ord.compare (Key.ascending v) (Key.ascending w) :=
  (Bytes.compare_of_settled? (Key.settled?_ascending v w)).symm

instance : Std.TransCmp totalCompare where
  eq_swap := by
    intro v w
    rw [totalCompare_eq_compare_ascending, totalCompare_eq_compare_ascending w v]
    exact Std.OrientedCmp.eq_swap
  isLE_trans := by
    intro u v w
    rw [totalCompare_eq_compare_ascending, totalCompare_eq_compare_ascending v w,
      totalCompare_eq_compare_ascending u w]
    exact Std.TransCmp.isLE_trans

end Value
end OrderedQuery
