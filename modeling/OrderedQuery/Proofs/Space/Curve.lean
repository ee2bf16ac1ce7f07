import OrderedQuery.Space
import Mathlib.Tactic.Ring

/-!
# Points and their ordinals

A point whose ordinal is taken has coordinates of 32 bits, and the curve gives the point
back from its ordinal.  Every 64-bit integer is the ordinal of a point, and the ordinal grows
with each of the two coordinates.
-/

namespace OrderedQuery
namespace Space

/-- A coordinate of 32 bits. -/
def Fits (c : Int64) : Prop := -2 ^ 31 ≤ c.toInt ∧ c.toInt < 2 ^ 31

instance (c : Int64) : Decidable (Fits c) := inferInstanceAs (Decidable (_ ∧ _))

theorem interleave_lt (bits x y : Nat) : interleave bits x y < 4 ^ bits := by
  induction bits generalizing x y with
  | zero => simp [interleave]
  | succ bits ih =>
      have hrest := ih (x / 2) (y / 2)
      rw [interleave, Nat.pow_succ]
      omega

theorem separate_interleave {bits x y : Nat} (hx : x < 2 ^ bits) (hy : y < 2 ^ bits) :
    separate bits (interleave bits x y) = (x, y) := by
  induction bits generalizing x y with
  | zero =>
      obtain rfl : x = 0 := by simpa using hx
      obtain rfl : y = 0 := by simpa using hy
      rfl
  | succ bits ih =>
      rw [Nat.pow_succ] at hx hy
      have hz : interleave (bits + 1) x y =
          4 * interleave bits (x / 2) (y / 2) + (2 * (x % 2) + y % 2) := rfl
      have hquot : interleave (bits + 1) x y / 4 = interleave bits (x / 2) (y / 2) := by
        omega
      have hrest : separate bits (interleave bits (x / 2) (y / 2)) = (x / 2, y / 2) :=
        ih (by omega) (by omega)
      rw [separate, hquot, hrest]
      show (2 * (x / 2) + interleave (bits + 1) x y / 2 % 2,
        2 * (y / 2) + interleave (bits + 1) x y % 2) = (x, y)
      rw [Prod.mk.injEq]
      omega

theorem separate_lt (bits z : Nat) :
    (separate bits z).1 < 2 ^ bits ∧ (separate bits z).2 < 2 ^ bits := by
  induction bits generalizing z with
  | zero => simp [separate]
  | succ bits ih =>
      obtain ⟨hx, hy⟩ := ih (z / 4)
      rw [separate, Nat.pow_succ]
      dsimp only
      omega

theorem interleave_separate {bits z : Nat} (hz : z < 4 ^ bits) :
    interleave bits (separate bits z).1 (separate bits z).2 = z := by
  induction bits generalizing z with
  | zero =>
      obtain rfl : z = 0 := by simpa using hz
      rfl
  | succ bits ih =>
      rw [Nat.pow_succ] at hz
      have hrest := ih (z := z / 4) (by omega)
      rw [separate]
      generalize separate bits (z / 4) = digits at hrest
      obtain ⟨x, y⟩ := digits
      show 4 * interleave bits ((2 * x + z / 2 % 2) / 2) ((2 * y + z % 2) / 2) +
        (2 * ((2 * x + z / 2 % 2) % 2) + (2 * y + z % 2) % 2) = z
      have hx : (2 * x + z / 2 % 2) / 2 = x := by omega
      have hy : (2 * y + z % 2) / 2 = y := by omega
      rw [hx, hy, hrest]
      omega

/-- The interleaved number grows with both numbers: their higher digits decide, and if these
agree the last pair of digits does. -/
theorem interleave_lt_interleave {bits x y x' y' : Nat} (hx : x ≤ x') (hy : y ≤ y')
    (hne : x ≠ x' ∨ y ≠ y') (hx' : x' < 2 ^ bits) (hy' : y' < 2 ^ bits) :
    interleave bits x y < interleave bits x' y' := by
  induction bits generalizing x y x' y' with
  | zero =>
      rw [Nat.pow_zero] at hx' hy'
      omega
  | succ bits ih =>
      rw [Nat.pow_succ] at hx' hy'
      rw [interleave, interleave]
      by_cases hhigh : x / 2 = x' / 2 ∧ y / 2 = y' / 2
      · rw [hhigh.1, hhigh.2]
        omega
      · have hrest : interleave bits (x / 2) (y / 2) < interleave bits (x' / 2) (y' / 2) :=
          ih (by omega) (by omega) (by omega) (by omega) (by omega)
        omega

theorem biased_eq_ok_iff {coordinate : Int} {n : Nat} :
    biased coordinate = .ok n ↔
      (-2 ^ 31 ≤ coordinate ∧ coordinate < 2 ^ 31) ∧ n = (coordinate + 2 ^ 31).toNat := by
  rw [biased]
  split
  · rename_i h
    simp only [h, and_self, true_and, Except.ok.injEq]
    exact eq_comm
  · rename_i h
    exact ⟨fun he => (nomatch he), fun hn => absurd hn.1 h⟩

/-- The points that have an ordinal are those with two coordinates of 32 bits. -/
theorem shuffle_eq_ok {space : Space} {point : List Int64} {ordinal : Int64}
    (h : space.shuffle point = .ok ordinal) :
    ∃ a b x y, point = [a, b] ∧ biased a.toInt = .ok x ∧ biased b.toInt = .ok y ∧
      ordinal = .ofInt ((interleave 32 x y : Int) - 2 ^ 63) := by
  match point with
  | [a, b] =>
      rw [shuffle] at h
      cases hx : biased a.toInt with
      | error e => rw [hx] at h; cases h
      | ok x =>
          rw [hx] at h
          cases hy : biased b.toInt with
          | error e => rw [hy] at h; cases h
          | ok y =>
              rw [hy] at h
              exact ⟨a, b, x, y, rfl, hx, hy, (Except.ok.inj h).symm⟩
  | [] => cases h
  | [_] => cases h
  | _ :: _ :: _ :: _ => cases h

/-- A point whose coordinates have 32 bits has an ordinal, and no other point has one. -/
theorem exists_shuffle_eq_ok_iff {space : Space} {a b : Int64} :
    (∃ ordinal, space.shuffle [a, b] = .ok ordinal) ↔ Fits a ∧ Fits b := by
  constructor
  · rintro ⟨ordinal, h⟩
    obtain ⟨a', b', x, y, hpoint, hx, hy, -⟩ := shuffle_eq_ok h
    obtain ⟨rfl, hrest⟩ := List.cons.inj hpoint
    obtain ⟨rfl, -⟩ := List.cons.inj hrest
    exact ⟨(biased_eq_ok_iff.mp hx).1, (biased_eq_ok_iff.mp hy).1⟩
  · rintro ⟨ha, hb⟩
    have hx := biased_eq_ok_iff.mpr ⟨ha, rfl⟩
    have hy := biased_eq_ok_iff.mpr ⟨hb, rfl⟩
    rw [shuffle, hx, hy]
    exact ⟨_, rfl⟩

/-- A point is given back by its ordinal. -/
theorem unshuffle_shuffle {space : Space} {point : List Int64} {ordinal : Int64}
    (h : space.shuffle point = .ok ordinal) : space.unshuffle ordinal = point := by
  obtain ⟨a, b, x, y, rfl, hx, hy, rfl⟩ := shuffle_eq_ok h
  obtain ⟨ha, rfl⟩ := biased_eq_ok_iff.mp hx
  obtain ⟨hb, rfl⟩ := biased_eq_ok_iff.mp hy
  have hsmall := interleave_lt 32 (a.toInt + 2 ^ 31).toNat (b.toInt + 2 ^ 31).toNat
  have hpow : (4 : Nat) ^ 32 = 2 ^ 64 := by norm_num
  rw [hpow] at hsmall
  have hint (z : Nat) (hz : z < 2 ^ 64) :
      ((Int64.ofInt ((z : Int) - 2 ^ 63)).toInt + 2 ^ 63).toNat = z := by
    rw [Int64.toInt_ofInt_of_le (by omega) (by omega)]
    omega
  have hback (c : Int64) (hc : -2 ^ 31 ≤ c.toInt) :
      Int64.ofInt (((c.toInt + 2 ^ 31).toNat : Int) - 2 ^ 31) = c := by
    have hcast : (((c.toInt + 2 ^ 31).toNat : Int) - 2 ^ 31) = c.toInt := by omega
    rw [hcast, Int64.ofInt_toInt]
  rw [unshuffle, hint _ hsmall, separate_interleave (by omega) (by omega)]
  show [Int64.ofInt _, Int64.ofInt _] = [a, b]
  rw [hback a ha.1, hback b hb.1]

/-- Every ordinal is that of its point. -/
theorem exists_unshuffle_eq (space : Space) (ordinal : Int64) :
    ∃ a b, space.unshuffle ordinal = [a, b] ∧ Fits a ∧ Fits b ∧
      space.shuffle [a, b] = .ok ordinal := by
  have hlow := ordinal.le_toInt
  have hhigh := ordinal.toInt_lt
  have hpow : (4 : Nat) ^ 32 = 2 ^ 64 := by norm_num
  have hsmall : (ordinal.toInt + 2 ^ 63).toNat < 4 ^ 32 := by omega
  have hback := interleave_separate hsmall
  rw [unshuffle]
  obtain ⟨hx, hy⟩ := separate_lt 32 (ordinal.toInt + 2 ^ 63).toNat
  generalize separate 32 (ordinal.toInt + 2 ^ 63).toNat = point at hx hy hback
  obtain ⟨x, y⟩ := point
  have hcoordinate (n : Nat) (hn : n < 2 ^ 32) :
      (Int64.ofInt ((n : Int) - 2 ^ 31)).toInt = (n : Int) - 2 ^ 31 :=
    Int64.toInt_ofInt_of_le (by omega) (by omega)
  have hfits (n : Nat) (hn : n < 2 ^ 32) : Fits (.ofInt ((n : Int) - 2 ^ 31)) := by
    rw [Fits, hcoordinate n hn]
    omega
  have hbiased (n : Nat) (hn : n < 2 ^ 32) :
      biased (Int64.ofInt ((n : Int) - 2 ^ 31)).toInt = .ok n := by
    refine biased_eq_ok_iff.mpr ⟨hfits n hn, ?_⟩
    rw [hcoordinate n hn]
    omega
  refine ⟨_, _, rfl, hfits x hx, hfits y hy, ?_⟩
  rw [shuffle, hbiased x hx, hbiased y hy]
  show Except.ok (Int64.ofInt ((interleave 32 x y : Int) - 2 ^ 63)) = _
  have hcast : ((interleave 32 x y : Int) - 2 ^ 63) = ordinal.toInt := by
    dsimp only at hback
    omega
  rw [hcast, Int64.ofInt_toInt]

/-! ## Order -/

/-- The ordinal counts the interleaved numbers from the least 64-bit integer on. -/
theorem toInt_of_shuffle {space : Space} {a b ordinal : Int64}
    (h : space.shuffle [a, b] = .ok ordinal) :
    Fits a ∧ Fits b ∧ ordinal.toInt =
      (interleave 32 (a.toInt + 2 ^ 31).toNat (b.toInt + 2 ^ 31).toNat : Int) - 2 ^ 63 := by
  obtain ⟨a', b', x, y, hpoint, hx, hy, rfl⟩ := shuffle_eq_ok h
  obtain ⟨rfl, hrest⟩ := List.cons.inj hpoint
  obtain ⟨rfl, -⟩ := List.cons.inj hrest
  obtain ⟨ha, rfl⟩ := biased_eq_ok_iff.mp hx
  obtain ⟨hb, rfl⟩ := biased_eq_ok_iff.mp hy
  have hsmall := interleave_lt 32 (a.toInt + 2 ^ 31).toNat (b.toInt + 2 ^ 31).toNat
  have hpow : (4 : Nat) ^ 32 = 2 ^ 64 := by norm_num
  exact ⟨ha, hb, Int64.toInt_ofInt_of_le (by omega) (by omega)⟩

/-- The ordinal of a point that lies above another one, in one coordinate at least and below it
in none, is greater. -/
theorem shuffle_lt_shuffle {space : Space} {a b a' b' z z' : Int64}
    (h : space.shuffle [a, b] = .ok z) (h' : space.shuffle [a', b'] = .ok z')
    (ha : a ≤ a') (hb : b ≤ b') (hne : (a, b) ≠ (a', b')) : z < z' := by
  obtain ⟨hfa, hfb, hz⟩ := toInt_of_shuffle h
  obtain ⟨hfa', hfb', hz'⟩ := toInt_of_shuffle h'
  rw [Fits] at hfa hfb hfa' hfb'
  rw [Int64.le_iff_toInt_le] at ha hb
  have hdiffer : a.toInt ≠ a'.toInt ∨ b.toInt ≠ b'.toInt := by
    by_contra! hsame
    exact hne (Prod.ext (Int64.toInt_inj.mp hsame.1) (Int64.toInt_inj.mp hsame.2))
  have hlt : interleave 32 (a.toInt + 2 ^ 31).toNat (b.toInt + 2 ^ 31).toNat <
      interleave 32 (a'.toInt + 2 ^ 31).toNat (b'.toInt + 2 ^ 31).toNat :=
    interleave_lt_interleave (by omega) (by omega) (by omega) (by omega) (by omega)
  rw [Int64.lt_iff_toInt_lt, hz, hz']
  omega

theorem shuffle_le_shuffle {space : Space} {a b a' b' z z' : Int64}
    (h : space.shuffle [a, b] = .ok z) (h' : space.shuffle [a', b'] = .ok z')
    (ha : a ≤ a') (hb : b ≤ b') : z ≤ z' := by
  by_cases hne : (a, b) = (a', b')
  · obtain ⟨rfl, rfl⟩ := Prod.mk.inj hne
    obtain rfl := Except.ok.inj (h.symm.trans h')
    exact Int64.le_refl z
  · have hlt := shuffle_lt_shuffle h h' ha hb hne
    rw [Int64.lt_iff_toInt_lt] at hlt
    rw [Int64.le_iff_toInt_le]
    omega

/-- Points between two corners have ordinals between those of the corners. -/
theorem exists_shuffle_between (space : Space) {a b c d x y low high : Int64}
    (hlow : space.shuffle [a, b] = .ok low) (hhigh : space.shuffle [c, d] = .ok high)
    (hax : a ≤ x) (hxc : x ≤ c) (hby : b ≤ y) (hyd : y ≤ d) :
    ∃ ordinal, space.shuffle [x, y] = .ok ordinal ∧ low ≤ ordinal ∧ ordinal ≤ high := by
  obtain ⟨ha, hb⟩ := exists_shuffle_eq_ok_iff.mp ⟨low, hlow⟩
  obtain ⟨hc, hd⟩ := exists_shuffle_eq_ok_iff.mp ⟨high, hhigh⟩
  rw [Fits] at ha hb hc hd
  have hbounds := And.intro (And.intro hax hxc) (And.intro hby hyd)
  rw [Int64.le_iff_toInt_le, Int64.le_iff_toInt_le, Int64.le_iff_toInt_le,
    Int64.le_iff_toInt_le] at hbounds
  obtain ⟨ordinal, hordinal⟩ : ∃ z, space.shuffle [x, y] = .ok z :=
    exists_shuffle_eq_ok_iff.mpr (by rw [Fits, Fits]; omega)
  exact ⟨ordinal, hordinal, shuffle_le_shuffle hlow hordinal hax hby,
    shuffle_le_shuffle hordinal hhigh hxc hyd⟩

/-! ## Boxes -/

/-- A box of points, given by its two extreme corners. -/
structure Box where
  low : Int64 × Int64
  high : Int64 × Int64

namespace Box

/-- The point is not below the low corner, nor above the high one. -/
def Contains (box : Box) (x y : Int64) : Prop :=
  (box.low.1 ≤ x ∧ x ≤ box.high.1) ∧ box.low.2 ≤ y ∧ y ≤ box.high.2

instance (box : Box) (x y : Int64) : Decidable (box.Contains x y) :=
  inferInstanceAs (Decidable (_ ∧ _))

/-- Both corners are points of the space. -/
structure Bounded (box : Box) : Prop where
  low : Fits box.low.1 ∧ Fits box.low.2
  high : Fits box.high.1 ∧ Fits box.high.2

variable {box : Box}

/-- The ordinals of the points of a box. -/
theorem Bounded.exists_shuffle (h : box.Bounded) (space : Space) :
    ∃ low high, space.shuffle [box.low.1, box.low.2] = .ok low ∧
      space.shuffle [box.high.1, box.high.2] = .ok high ∧
      ∀ x y, box.Contains x y →
        ∃ z, space.shuffle [x, y] = .ok z ∧ low ≤ z ∧ z ≤ high := by
  obtain ⟨low, hlow⟩ : ∃ z, space.shuffle [box.low.1, box.low.2] = .ok z :=
    exists_shuffle_eq_ok_iff.mpr h.low
  obtain ⟨high, hhigh⟩ : ∃ z, space.shuffle [box.high.1, box.high.2] = .ok z :=
    exists_shuffle_eq_ok_iff.mpr h.high
  refine ⟨low, high, hlow, hhigh, ?_⟩
  rintro x y ⟨⟨hax, hxc⟩, hby, hyd⟩
  exact exists_shuffle_between space hlow hhigh hax hxc hby hyd

end Box

end Space
end OrderedQuery
