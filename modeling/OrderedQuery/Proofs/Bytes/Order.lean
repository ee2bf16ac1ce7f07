import OrderedQuery.Bytes
import Mathlib.Tactic.Ring

/-!
# Bytewise order

The order of byte strings, and when it is settled by two beginnings.  `Bytes.settled? p q`
compares two strings as code words: there is an answer unless one of them properly begins
the other.  An answer other than `.eq` does not depend on what follows the two strings, so
the order of concatenated code words is lexicographic.

Every string has a next one in this order, which is one zero byte longer.
-/

namespace OrderedQuery
namespace Bytes

theorem compare_cons (a b : UInt8) (p q : Bytes) :
    compare (a :: p) (b :: q) = (compare a b).then (compare p q) :=
  List.compareLex_cons_cons

theorem compare_nil_right (p : Bytes) :
    compare p ([] : Bytes) ≠ .lt := by
  cases p with
  | nil => simp
  | cons b q => simp [List.compare_cons_nil]

/-- `compare` and `<` give byte strings the same order. -/
theorem compare_eq_lt_iff {p q : Bytes} : compare p q = .lt ↔ p < q := by
  induction p generalizing q with
  | nil =>
      cases q with
      | nil => simp
      | cons b q => simp [List.compare_nil_cons]
  | cons a p ih =>
      cases q with
      | nil => simp [List.compare_cons_nil]
      | cons b q =>
          rw [compare_cons, Ordering.then_eq_lt, List.cons_lt_cons_iff, ih,
            Std.compare_eq_lt, Std.compare_eq_iff_eq]

theorem compare_eq_gt_iff {p q : Bytes} : compare p q = .gt ↔ q < p := by
  rw [← compare_eq_lt_iff, Std.OrientedCmp.gt_iff_lt]

/-! ## Neighbours -/

/-- A string followed by a zero byte is next to it: whatever lies above the one lies from the
other on. -/
theorem append_zero_le_iff {p q : Bytes} : p ++ [0] ≤ q ↔ p < q := by
  induction p generalizing q with
  | nil =>
      cases q with
      | nil => simp
      | cons b q =>
          rw [List.nil_append, List.cons_le_cons_iff]
          rcases UInt8.lt_or_eq_of_le (UInt8.zero_le (a := b)) with hlt | heq
          · simp [hlt]
          · simp [← heq]
  | cons a p ih =>
      cases q with
      | nil => simp
      | cons b q => rw [List.cons_append, List.cons_le_cons_iff, List.cons_lt_cons_iff, ih]

theorem append_zero_lt_iff {p q : Bytes} : p ++ [0] < q ↔ p < q ∧ q ≠ p ++ [0] := by
  rw [Std.lt_iff_le_and_ne, append_zero_le_iff, ne_comm]

/-! ## Code words -/

/-- The order of two byte strings, if it is settled before either of them ends or if they
are equal. -/
def settled? : Bytes → Bytes → Option Ordering
  | [], [] => some .eq
  | a :: p, b :: q =>
      match compare a b with
      | .eq => settled? p q
      | o => some o
  | _, _ => none

theorem settled?_cons_of_ne {a b : UInt8} (h : a ≠ b) (p q : Bytes) :
    settled? (a :: p) (b :: q) = some (compare a b) := by
  have hne : compare a b ≠ .eq := fun he => h (Std.compare_eq_iff_eq.mp he)
  rw [settled?]
  cases hc : compare a b with
  | lt => rfl
  | eq => exact absurd hc hne
  | gt => rfl

@[simp]
theorem settled?_cons_self (a : UInt8) (p q : Bytes) :
    settled? (a :: p) (a :: q) = settled? p q := by
  simp [settled?]

/-- What follows two code words matters only if the code words are equal. -/
theorem compare_append {p q : Bytes} {o : Ordering} (h : settled? p q = some o)
    (x y : Bytes) : compare (p ++ x) (q ++ y) = o.then (compare x y) := by
  induction p generalizing q with
  | nil =>
      cases q with
      | nil =>
          obtain rfl : Ordering.eq = o := by simpa [settled?] using h
          rfl
      | cons b q => simp [settled?] at h
  | cons a p ih =>
      cases q with
      | nil => simp [settled?] at h
      | cons b q =>
          by_cases hab : a = b
          · subst hab
            rw [settled?_cons_self] at h
            rw [List.cons_append, List.cons_append, compare_cons, ih h]
            simp
          · rw [settled?_cons_of_ne hab] at h
            obtain rfl : compare a b = o := by simpa using h
            have hne : compare a b ≠ .eq := fun he => hab (Std.compare_eq_iff_eq.mp he)
            rw [List.cons_append, List.cons_append, compare_cons]
            cases hc : compare a b with
            | lt => rfl
            | eq => exact absurd hc hne
            | gt => rfl

theorem settled?_append {p q : Bytes} {o : Ordering} (h : settled? p q = some o)
    {x y : Bytes} {o' : Ordering} (h' : settled? x y = some o') :
    settled? (p ++ x) (q ++ y) = some (o.then o') := by
  induction p generalizing q with
  | nil =>
      cases q with
      | nil =>
          obtain rfl : Ordering.eq = o := by simpa [settled?] using h
          exact h'
      | cons b q => simp [settled?] at h
  | cons a p ih =>
      cases q with
      | nil => simp [settled?] at h
      | cons b q =>
          by_cases hab : a = b
          · subst hab
            rw [settled?_cons_self] at h
            rw [List.cons_append, List.cons_append, settled?_cons_self, ih h]
          · rw [settled?_cons_of_ne hab] at h
            obtain rfl : compare a b = o := by simpa using h
            have hne : compare a b ≠ .eq := fun he => hab (Std.compare_eq_iff_eq.mp he)
            rw [List.cons_append, List.cons_append, settled?_cons_of_ne hab]
            cases hc : compare a b with
            | lt => rfl
            | eq => exact absurd hc hne
            | gt => rfl

theorem compare_of_settled? {p q : Bytes} {o : Ordering} (h : settled? p q = some o) :
    compare p q = o := by
  have happ := compare_append h [] []
  simpa [List.compare_nil_nil] using happ

/-- Code words of the same rank are the same bytes. -/
theorem eq_of_settled? {p q : Bytes} (h : settled? p q = some .eq) : p = q :=
  Std.compare_eq_iff_eq.mp (compare_of_settled? h)

/-! ## Complements -/

@[simp]
theorem complement_append (p q : Bytes) :
    complement (p ++ q) = complement p ++ complement q :=
  List.map_append

@[simp]
theorem complement_complement (p : Bytes) : complement (complement p) = p := by
  simp [complement, List.map_map, Function.comp_def]

theorem compare_not (a b : UInt8) : compare (~~~a) (~~~b) = (compare a b).swap := by
  have hlt (x y : UInt8) : ~~~x < ~~~y ↔ y < x := by
    rw [UInt8.lt_iff_toNat_lt, UInt8.lt_iff_toNat_lt, UInt8.toNat_not, UInt8.toNat_not]
    have hx : x.toNat < 256 := x.toNat_lt
    have hy : y.toNat < 256 := y.toNat_lt
    have hsize : UInt8.size = 256 := rfl
    omega
  cases hc : compare a b with
  | lt =>
      rw [Std.compare_eq_lt] at hc
      exact Std.compare_eq_gt.mpr ((hlt b a).mpr hc)
  | eq =>
      obtain rfl := Std.compare_eq_iff_eq.mp hc
      exact Std.ReflOrd.compare_self
  | gt =>
      rw [Std.compare_eq_gt] at hc
      exact Std.compare_eq_lt.mpr ((hlt a b).mpr hc)

/-- Complementing code words reverses their order. -/
theorem settled?_complement (p q : Bytes) :
    settled? (complement p) (complement q) = (settled? p q).map Ordering.swap := by
  induction p generalizing q with
  | nil =>
      cases q with
      | nil => rfl
      | cons b q => rfl
  | cons a p ih =>
      cases q with
      | nil => rfl
      | cons b q =>
          show settled? (~~~a :: complement p) (~~~b :: complement q) = _
          by_cases hab : a = b
          · subst hab
            rw [settled?_cons_self, settled?_cons_self, ih]
          · have hnot : ~~~a ≠ ~~~b := fun h => hab (by simpa using congrArg (~~~·) h)
            rw [settled?_cons_of_ne hab, settled?_cons_of_ne hnot, compare_not]
            rfl

/-! ## Big-endian words -/

@[simp]
theorem length_bigEndian (width n : Nat) : (bigEndian width n).length = width := by
  induction width generalizing n with
  | zero => rfl
  | succ width ih => simp [bigEndian, ih]

theorem compare_ofNat (m n : Nat) :
    compare (UInt8.ofNat m) (UInt8.ofNat n) = compare (m % 256) (n % 256) := by
  rcases Nat.lt_trichotomy (m % 256) (n % 256) with h | h | h
  · rw [Nat.compare_eq_lt.mpr h, Std.compare_eq_lt, UInt8.lt_iff_toNat_lt]
    simpa using h
  · rw [Nat.compare_eq_eq.mpr h, Std.compare_eq_iff_eq, ← UInt8.toNat_inj]
    simpa using h
  · rw [Nat.compare_eq_gt.mpr h, Std.compare_eq_gt, UInt8.lt_iff_toNat_lt]
    simpa using h

/-- Numbers are compared digit by digit, the high one first. -/
theorem compare_digits {b r r' : Nat} (hr : r < b) (hr' : r' < b) (q q' : Nat) :
    compare (r + b * q) (r' + b * q') = (compare q q').then (compare r r') := by
  rcases Nat.lt_trichotomy q q' with h | h | h
  · have hmul : b * (q + 1) ≤ b * q' := Nat.mul_le_mul_left b h
    rw [Nat.compare_eq_lt.mpr h, Nat.compare_eq_lt.mpr (by rw [Nat.mul_add] at hmul; omega)]
    rfl
  · subst h
    rw [Nat.compare_eq_eq.mpr rfl, Ordering.eq_then]
    rcases Nat.lt_trichotomy r r' with h | h | h
    · rw [Nat.compare_eq_lt.mpr h, Nat.compare_eq_lt.mpr (by omega)]
    · rw [h, Std.ReflOrd.compare_self, Std.ReflOrd.compare_self]
    · rw [Nat.compare_eq_gt.mpr h, Nat.compare_eq_gt.mpr (by omega)]
  · have hmul : b * (q' + 1) ≤ b * q := Nat.mul_le_mul_left b h
    rw [Nat.compare_eq_gt.mpr h, Nat.compare_eq_gt.mpr (by rw [Nat.mul_add] at hmul; omega)]
    rfl

theorem settled?_bigEndian_mod (width m n : Nat) :
    settled? (bigEndian width m) (bigEndian width n) =
      some (compare (m % 256 ^ width) (n % 256 ^ width)) := by
  induction width with
  | zero => simp [bigEndian, settled?, Nat.mod_one]
  | succ width ih =>
      have hpos : 0 < 256 ^ width := Nat.pow_pos (by decide)
      have hdigits := compare_digits (Nat.mod_lt m hpos) (Nat.mod_lt n hpos)
        (m / 256 ^ width % 256) (n / 256 ^ width % 256)
      rw [Nat.mod_pow_succ, Nat.mod_pow_succ, hdigits, bigEndian, bigEndian]
      have hhead := compare_ofNat (m / 256 ^ width) (n / 256 ^ width)
      by_cases heq : UInt8.ofNat (m / 256 ^ width) = UInt8.ofNat (n / 256 ^ width)
      · rw [heq] at hhead
        rw [heq, settled?_cons_self, ih, ← hhead, Std.ReflOrd.compare_self]
        rfl
      · have hne := mt Std.compare_eq_iff_eq.mp heq
        rw [settled?_cons_of_ne heq, hhead]
        rw [hhead] at hne
        cases hc : compare (m / 256 ^ width % 256) (n / 256 ^ width % 256) with
        | lt => rfl
        | eq => exact absurd hc hne
        | gt => rfl

/-- Words of one width are ordered like the numbers they hold. -/
theorem settled?_bigEndian {width m n : Nat} (hm : m < 256 ^ width)
    (hn : n < 256 ^ width) :
    settled? (bigEndian width m) (bigEndian width n) = some (compare m n) := by
  rw [settled?_bigEndian_mod, Nat.mod_eq_of_lt hm, Nat.mod_eq_of_lt hn]

theorem toNatBig_cons (c : UInt8) (b : Bytes) :
    toNatBig (c :: b) = c.toNat * 256 ^ b.length + toNatBig b := by
  have hfold (b : Bytes) (start : Nat) :
      b.foldl (fun n byte => 256 * n + byte.toNat) start =
        start * 256 ^ b.length + toNatBig b := by
    induction b generalizing start with
    | nil => simp [toNatBig]
    | cons c b ih =>
        rw [toNatBig, List.foldl_cons, List.foldl_cons, ih, ih (256 * 0 + c.toNat),
          List.length_cons, Nat.pow_succ]
        ring
  rw [toNatBig, List.foldl_cons, hfold]
  simp

/-- Reading a word gives the number back. -/
theorem toNatBig_bigEndian (width n : Nat) :
    toNatBig (bigEndian width n) = n % 256 ^ width := by
  induction width with
  | zero => simp [bigEndian, toNatBig, Nat.mod_one]
  | succ width ih =>
      have hbyte : (UInt8.ofNat (n / 256 ^ width)).toNat = n / 256 ^ width % 256 := by
        simp
      rw [bigEndian, toNatBig_cons, length_bigEndian, ih, hbyte, Nat.mod_pow_succ]
      ring

theorem toNatBig_lt (b : Bytes) : toNatBig b < 256 ^ b.length := by
  induction b with
  | nil => simp [toNatBig]
  | cons c b ih =>
      have hc : c.toNat < 256 := c.toNat_lt
      have hmul : (c.toNat + 1) * 256 ^ b.length ≤ 256 * 256 ^ b.length :=
        Nat.mul_le_mul_right _ hc
      rw [toNatBig_cons, List.length_cons, Nat.pow_succ]
      rw [Nat.add_mul] at hmul
      omega

theorem bigEndian_congr {width m n : Nat} (h : m % 256 ^ width = n % 256 ^ width) :
    bigEndian width m = bigEndian width n := by
  refine eq_of_settled? ?_
  rw [settled?_bigEndian_mod, h, Std.ReflOrd.compare_self]

/-- A word is written again from its number. -/
theorem bigEndian_toNatBig (b : Bytes) : bigEndian b.length (toNatBig b) = b := by
  induction b with
  | nil => rfl
  | cons c b ih =>
      have hsmall := toNatBig_lt b
      have hpos : 0 < 256 ^ b.length := Nat.pow_pos (by decide)
      have hhead : toNatBig (c :: b) / 256 ^ b.length = c.toNat := by
        rw [toNatBig_cons, Nat.mul_comm, Nat.mul_add_div hpos, Nat.div_eq_of_lt hsmall,
          Nat.add_zero]
      have htail : toNatBig (c :: b) % 256 ^ b.length = toNatBig b % 256 ^ b.length := by
        rw [toNatBig_cons, Nat.mul_comm, Nat.mul_add_mod]
      rw [List.length_cons, bigEndian, hhead, bigEndian_congr htail, ih, UInt8.ofNat_toNat]

end Bytes
end OrderedQuery
