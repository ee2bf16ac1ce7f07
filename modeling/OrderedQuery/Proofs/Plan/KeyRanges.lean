import OrderedQuery.Plan.Partitions
import OrderedQuery.Proofs.Plan.Semantics
import OrderedQuery.Proofs.Value.Basic

/-!
# The pieces of a range of integers

The ends of the pieces are rounded several times, but every step of the computation is
monotone, so that the ends ascend up to the last one that is computed.  The high end of the
range comes after it unchanged.  Whether it is above the last end that is computed depends on
the length of the range as a float, which can be larger than the length itself as soon as an end
of the range needs more than 53 bits.
-/

namespace OrderedQuery

/-- A list of computations succeeds if all of them do. -/
theorem Except.mapM_eq_ok {ε α β : Type} {f : α → Except ε β} {g : α → β} {l : List α}
    (h : ∀ a ∈ l, f a = .ok (g a)) : l.mapM f = .ok (l.map g) := by
  induction l with
  | nil => rfl
  | cons a l ih =>
      rw [List.mapM_cons, h a List.mem_cons_self, ih fun b hb => h b (List.mem_cons_of_mem a hb)]
      rfl

theorem Except.exists_eq_ok_of_mapM {ε α β : Type} {f : α → Except ε β} {l : List α}
    {bs : List β} (h : l.mapM f = .ok bs) : ∀ a ∈ l, ∃ b, f a = .ok b := by
  induction l generalizing bs with
  | nil => exact nofun
  | cons a l ih =>
      rw [List.mapM_cons] at h
      obtain ⟨b, hb, h⟩ := Except.bind_eq_ok_iff.mp h
      obtain ⟨rest, hrest, -⟩ := Except.bind_eq_ok_iff.mp h
      intro x hx
      rcases List.mem_cons.mp hx with rfl | hx
      · exact ⟨b, hb⟩
      · exact ih hrest x hx

namespace Partitioning

open Binary64

variable {low high : Int64} {n i j m : Nat}

/-- The length of a range, as a float. -/
def span (low high : Int64) : Binary64 :=
  (Binary64.ofInt high.toInt).sub (.ofInt low.toInt)

theorem step_eq (low high : Int64) (n : Nat) : step low high n = (span low high).div (.ofInt n) :=
  rfl

/-- A length is zero or at least one. -/
theorem span_eq (h : low ≤ high) :
    ∃ m, m < infinityMagnitude ∧ span low high = ofMagnitude false m ∧
      (unitsOf m = 0 ∨ unitsPerOne ≤ unitsOf m) := by
  have hle : low.toInt ≤ high.toInt := Int64.le_iff_toInt_le.mp h
  have hsub := sub_ofInt (natAbs_toInt_le low) (natAbs_toInt_le high) hle
  have hmono := signedUnits_ofInt_mono hle
  have hlow := natAbs_signedUnits_ofInt_le (natAbs_toInt_le low)
  have hhigh := natAbs_signedUnits_ofInt_le (natAbs_toInt_le high)
  have hdvd : (unitsPerOne : Int) ∣
      (Binary64.ofInt high.toInt).signedUnits - (Binary64.ofInt low.toInt).signedUnits :=
    Int.dvd_sub (dvd_signedUnits_ofInt _) (dvd_signedUnits_ofInt _)
  generalize (Binary64.ofInt high.toInt).signedUnits = high' at *
  generalize (Binary64.ofInt low.toInt).signedUnits = low' at *
  have hbound : (high' - low').toNat ≤ 2 ^ 64 * unitsPerOne := by omega
  refine ⟨_, roundUnits_lt_infinityMagnitude hbound, hsub, ?_⟩
  rcases Nat.eq_zero_or_pos (high' - low').toNat with hzero | hpos
  · rw [hzero]
    exact .inl rfl
  · right
    have hone : unitsPerOne ≤ (high' - low').toNat := by
      have := Int.le_of_dvd (by omega) hdvd
      omega
    have hround : natMagnitude 1 ≤ roundUnits (high' - low').toNat 1 := by
      apply roundUnits_mono Nat.one_pos Nat.one_pos
      rwa [Nat.one_mul, Nat.mul_one, Nat.mul_one]
    have hmonotone := unitsOf_mono hround
    rwa [unitsOf_natMagnitude_one] at hmonotone

/-! ## Offsets -/

/-- The distance between the low end of a range of length `m` and end `i` of `n`. -/
def offset (m n i : Nat) : Nat :=
  if natMagnitude n = infinityMagnitude then 0
  else
    roundUnits
      (unitsOf (roundUnits (unitsOf m * unitsPerOne) (unitsOf (natMagnitude n))) *
        unitsOf (natMagnitude i)) unitsPerOne

theorem offset_le_infinityMagnitude (m n i : Nat) : offset m n i ≤ infinityMagnitude := by
  unfold offset
  split
  · exact Nat.zero_le _
  · exact roundUnits_le_infinityMagnitude _ _

theorem offset_zero (m n : Nat) : offset m n 0 = 0 := by
  unfold offset
  split
  · rfl
  · rw [natMagnitude_zero, unitsOf_zero, Nat.mul_zero, roundUnits_zero unitsPerOne_pos]

theorem offset_mono (m n : Nat) (h : i ≤ j) : offset m n i ≤ offset m n j := by
  unfold offset
  split
  · exact Nat.le_refl 0
  · apply roundUnits_mono unitsPerOne_pos unitsPerOne_pos
    exact Nat.mul_le_mul_right _ (Nat.mul_le_mul_left _ (unitsOf_mono (natMagnitude_mono h)))

/-- The length of one piece is a finite number. -/
theorem roundUnits_div_le (hm : m < infinityMagnitude) (hn : 0 < n) :
    roundUnits (unitsOf m * unitsPerOne) (unitsOf (natMagnitude n)) ≤ m := by
  have hone : natMagnitude 1 ≤ natMagnitude n := natMagnitude_mono hn
  have hle := unitsOf_mono hone
  rw [unitsOf_natMagnitude_one] at hle
  apply roundUnits_le hm.le (unitsOf_pos (natMagnitude_pos hn))
  exact Nat.mul_le_mul_left _ hle

/-- What the pieces of a range are computed from. -/
theorem toInt64_offset (hm : m < infinityMagnitude) (hn : 0 < n) (hi : i < n) :
    (((ofMagnitude false m).div (.ofInt n)).mul (.ofInt i)).toInt64 =
      (ofMagnitude false (offset m n i)).toInt64 := by
  have hle : natMagnitude i ≤ natMagnitude n := natMagnitude_mono hi.le
  rw [ofInt_natCast, ofInt_natCast, offset]
  by_cases hinfinite : natMagnitude n = infinityMagnitude
  · -- A piece of so many has no length, and the number of pieces below an end may be infinite.
    rw [if_pos hinfinite, hinfinite, div_infinity hm]
    rcases Nat.lt_or_eq_of_le (natMagnitude_le i) with hfinite | hinfinite'
    · rw [mul_ofMagnitude (by decide) hfinite, unitsOf_zero, Nat.zero_mul,
        roundUnits_zero unitsPerOne_pos]
    · rw [hinfinite']
      decide +kernel
  · have hfinite : natMagnitude n < infinityMagnitude :=
      Nat.lt_of_le_of_ne (natMagnitude_le n) hinfinite
    have hpiece := Nat.lt_of_le_of_lt (roundUnits_div_le hm hn) hm
    rw [if_neg hinfinite, div_ofMagnitude hm hfinite (natMagnitude_pos hn),
      mul_ofMagnitude hpiece (Nat.lt_of_le_of_lt hle hfinite)]

/-- The length of a piece is rounded up by less than the last of up to `2 ^ 53` pieces makes
up for. -/
theorem offset_le (hm : m < infinityMagnitude) (hlength : unitsOf m = 0 ∨ unitsPerOne ≤ unitsOf m)
    (hn : n ≤ 2 ^ 53) (hi : i < n) : offset m n i ≤ m := by
  have hpos : 0 < n := Nat.lt_of_le_of_lt (Nat.zero_le i) hi
  unfold offset
  split
  · exact Nat.zero_le m
  · apply roundUnits_le hm.le unitsPerOne_pos
    rw [unitsOf_natMagnitude hn, unitsOf_natMagnitude (hi.le.trans hn), ← Nat.mul_assoc]
    apply Nat.mul_le_mul_right
    rcases hlength with hzero | hone
    · rw [hzero, Nat.zero_mul, roundUnits_zero (Nat.mul_pos hpos unitsPerOne_pos), unitsOf_zero,
        Nat.zero_mul]
    · have hlarge : n * unitsPerOne * 2 ^ 52 ≤ unitsOf m * unitsPerOne := by
        have hsmall : n * 2 ^ 52 ≤ unitsPerOne := by
          have hone := oneExponent_eq
          calc n * 2 ^ 52 ≤ 2 ^ 53 * 2 ^ 52 := Nat.mul_le_mul_right _ hn
            _ = 2 ^ 105 := by rw [← Nat.pow_add]
            _ ≤ unitsPerOne := Nat.pow_le_pow_right (by decide) (by omega)
        rw [Nat.mul_right_comm]
        exact Nat.mul_le_mul_right _ (hsmall.trans hone)
      have hround := unitsOf_roundUnits_mul_le (Nat.mul_pos hpos unitsPerOne_pos) hlarge
      generalize unitsOf (roundUnits (unitsOf m * unitsPerOne) (n * unitsPerOne)) = piece at *
      have hpiece : piece * n * 2 ^ 53 ≤ unitsOf m * (2 ^ 53 + 1) := by
        apply Nat.le_of_mul_le_mul_right _ unitsPerOne_pos
        calc piece * n * 2 ^ 53 * unitsPerOne = piece * (n * unitsPerOne) * 2 ^ 53 := by ring
          _ ≤ unitsOf m * unitsPerOne * (2 ^ 53 + 1) := hround
          _ = unitsOf m * (2 ^ 53 + 1) * unitsPerOne := by ring
      have hcount : (2 ^ 53 + 1) * i ≤ n * 2 ^ 53 := by omega
      apply Nat.le_of_mul_le_mul_right _ (Nat.mul_pos hpos (Nat.two_pow_pos 53))
      calc piece * i * (n * 2 ^ 53) = piece * n * 2 ^ 53 * i := by ring
        _ ≤ unitsOf m * (2 ^ 53 + 1) * i := Nat.mul_le_mul_right i hpiece
        _ = unitsOf m * ((2 ^ 53 + 1) * i) := by ring
        _ ≤ unitsOf m * (n * 2 ^ 53) := Nat.mul_le_mul_left _ hcount

/-! ## Ends -/

/-- The row of a piece. -/
def pieceRow (a b : Int64) : Row := ⟨pieceType, [.int a, .int b], rfl⟩

theorem pieceRow_inj {a b a' b' : Int64} : pieceRow a b = pieceRow a' b' ↔ a = a' ∧ b = b' := by
  constructor
  · intro h
    obtain ⟨ha, hrest⟩ := List.cons.inj (congrArg Row.values h)
    obtain ⟨hb, -⟩ := List.cons.inj hrest
    exact ⟨Value.int.inj ha, Value.int.inj hb⟩
  · rintro ⟨rfl, rfl⟩
    rfl

theorem piece_eq (low high : Int64) (n i : Nat) :
    piece low high n i = (do
      let a ← boundary low high n i
      let b ← boundary low high n (i + 1)
      .ok (.row (pieceRow a b))) := rfl

theorem piece_eq_ok_iff {p : Binding} :
    piece low high n i = .ok p ↔
      ∃ a b, boundary low high n i = .ok a ∧ boundary low high n (i + 1) = .ok b ∧
        p = .row (pieceRow a b) := by
  rw [piece_eq]
  constructor
  · intro h
    obtain ⟨a, ha, h⟩ := Except.bind_eq_ok_iff.mp h
    obtain ⟨b, hb, h⟩ := Except.bind_eq_ok_iff.mp h
    exact ⟨a, b, ha, hb, (Except.ok.inj h).symm⟩
  · rintro ⟨a, b, ha, hb, rfl⟩
    rw [ha, hb]
    rfl

theorem boundary_last (low high : Int64) (n : Nat) : boundary low high n n = .ok high := by
  rw [boundary, if_pos rfl]

/-- The ends but the last are computed from the length of the range. -/
theorem boundary_eq_ok_iff {a : Int64} (hm : m < infinityMagnitude)
    (hspan : span low high = ofMagnitude false m) (hi : i < n) :
    boundary low high n i = .ok a ↔
      a.toInt = low.toInt + (ofMagnitude false (offset m n i)).toInt64.toInt := by
  have hn : 0 < n := Nat.lt_of_le_of_lt (Nat.zero_le i) hi
  rw [boundary, if_neg (Nat.ne_of_lt hi), step_eq, hspan, toInt64_offset hm hn hi,
    ← Value.int64?_eq_some_iff]
  simp only
  cases Value.int64? (low.toInt + (ofMagnitude false (offset m n i)).toInt64.toInt) with
  | none => simp
  | some b => simp

/-- Pieces that lie one after the other between two integers, none of them inverted. -/
def Tiles (low high : Int64) (pieces : List Binding) : Prop :=
  ∃ ends : Nat → Int64, ends 0 = low ∧ ends pieces.length = high ∧
    pieces = (List.range pieces.length).map (fun i => .row (pieceRow (ends i) (ends (i + 1)))) ∧
    ∀ i < pieces.length, ends i ≤ ends (i + 1)

/-- Every key of a range lies in exactly one of its pieces. -/
theorem Tiles.exists_unique_piece {pieces : List Binding} (h : Tiles low high pieces)
    {key : Int64} (hlow : low ≤ key) (hhigh : key < high) :
    ∃ (i : Nat) (a b : Int64), pieces[i]? = some (Binding.row (pieceRow a b)) ∧
      a ≤ key ∧ key < b ∧
        ∀ (j : Nat) (a' b' : Int64), pieces[j]? = some (Binding.row (pieceRow a' b')) →
          a' ≤ key → key < b' → j = i := by
  obtain ⟨ends, hfirst, hlast, hpieces, hordered⟩ := h
  have hget : ∀ {i : Nat} {a b : Int64}, pieces[i]? = some (Binding.row (pieceRow a b)) ↔
      i < pieces.length ∧ a = ends i ∧ b = ends (i + 1) := by
    intro i a b
    conv_lhs => rw [hpieces]
    by_cases hi : i < pieces.length
    · simp [hi, pieceRow_inj, eq_comm]
    · simp [hi]
  have hascend : ∀ {i j : Nat}, i ≤ j → j ≤ pieces.length → ends i ≤ ends j := by
    intro i j hij
    induction hij with
    | refl => exact fun _ => Int64.le_refl _
    | step hij ih => exact fun hj => Int64.le_trans (ih (Nat.le_of_lt hj)) (hordered _ hj)
  -- The piece ends at the first end above the key.
  have hsome : ∃ j, key < ends j := ⟨pieces.length, by rwa [hlast]⟩
  obtain ⟨j, habove, hleast⟩ : ∃ j, key < ends j ∧ ∀ i < j, ¬ key < ends i :=
    ⟨Nat.find hsome, Nat.find_spec hsome, fun i hi => Nat.find_min hsome hi⟩
  cases j with
  | zero =>
      rw [hfirst] at habove
      exact absurd (Int64.lt_of_le_of_lt hlow habove) Int64.lt_irrefl
  | succ i =>
      have hi : i < pieces.length := by
        by_contra hge
        exact hleast pieces.length (by omega) (by rwa [hlast])
      refine ⟨i, ends i, ends (i + 1), hget.mpr ⟨hi, rfl, rfl⟩,
        Int64.not_lt.mp (hleast i (Nat.lt_succ_self i)), habove, ?_⟩
      intro j a' b' hj hbelow' habove'
      obtain ⟨hlt, rfl, rfl⟩ := hget.mp hj
      rcases Nat.lt_trichotomy j i with hji | heq | hij
      · exact absurd habove' (hleast (j + 1) (Nat.succ_lt_succ hji))
      · exact heq
      · have hle := hascend (Nat.succ_le_of_lt hij) hlt.le
        exact absurd (Int64.lt_of_lt_of_le habove (Int64.le_trans hle hbelow'))
          Int64.lt_irrefl

/-- The end that bounds piece `i` from below, where it can be computed. -/
def endAt (low high : Int64) (n i : Nat) : Int64 :=
  match boundary low high n i with
  | .ok a => a
  | .error _ => low

theorem endAt_eq {a : Int64} (h : boundary low high n i = .ok a) : endAt low high n i = a := by
  rw [endAt, h]

theorem boundary_eq_endAt {a : Int64} (h : boundary low high n i = .ok a) :
    boundary low high n i = .ok (endAt low high n i) := by
  rw [endAt_eq h, h]

/-- The pieces of a range in terms of their ends. -/
def piecesOf (low high : Int64) (n : Nat) : List Binding :=
  (List.range n).map fun i => .row (pieceRow (endAt low high n i) (endAt low high n (i + 1)))

theorem length_piecesOf (low high : Int64) (n : Nat) : (piecesOf low high n).length = n := by
  rw [piecesOf, List.length_map, List.length_range]

/-- Every end can be computed. -/
def Computes (low high : Int64) (n : Nat) : Prop :=
  ∀ i < n, boundary low high n i = .ok (endAt low high n i)

theorem mapM_piece (h : Computes low high n) :
    (List.range n).mapM (piece low high n) = .ok (piecesOf low high n) := by
  apply Except.mapM_eq_ok
  intro i hi
  have hin : i < n := List.mem_range.mp hi
  refine piece_eq_ok_iff.mpr ⟨_, _, h i hin, ?_, rfl⟩
  rcases Nat.lt_or_eq_of_le hin with hlt | heq
  · exact h (i + 1) hlt
  · have hlast := boundary_last low high n
    rw [← heq] at hlast ⊢
    exact boundary_eq_endAt hlast

theorem keyRanges_eq_ok_iff {pieces : List Binding} (hle : low ≤ high) (hn : 0 < n) :
    keyRanges low high n = .ok pieces ↔ Computes low high n ∧ pieces = piecesOf low high n := by
  have hordered : ¬ high.toInt < low.toInt := Int.not_lt.mpr (Int64.le_iff_toInt_le.mp hle)
  rw [keyRanges, if_neg (Nat.pos_iff_ne_zero.mp hn), if_neg hordered]
  constructor
  · intro h
    have hends : Computes low high n := by
      intro i hi
      obtain ⟨p, hp⟩ := Except.exists_eq_ok_of_mapM h i (List.mem_range.mpr hi)
      obtain ⟨a, b, ha, -⟩ := piece_eq_ok_iff.mp hp
      exact boundary_eq_endAt ha
    rw [mapM_piece hends] at h
    exact ⟨hends, (Except.ok.inj h).symm⟩
  · rintro ⟨hends, rfl⟩
    exact mapM_piece hends

/-- A range is given in pieces only if it is not inverted and there is a piece. -/
theorem valid_of_keyRanges {pieces : List Binding} (h : keyRanges low high n = .ok pieces) :
    low ≤ high ∧ 0 < n := by
  unfold keyRanges at h
  split at h
  · cases h
  · rename_i hn
    split at h
    · cases h
    · rename_i hordered
      exact ⟨Int64.le_iff_toInt_le.mpr (Int.not_lt.mp hordered), Nat.pos_of_ne_zero hn⟩

theorem endAt_last (low high : Int64) (n : Nat) : endAt low high n n = high :=
  endAt_eq (boundary_last low high n)

section Ends

variable (hm : m < infinityMagnitude) (hspan : span low high = ofMagnitude false m)
  (h : Computes low high n)

include hm hspan h

theorem toInt_endAt (hi : i < n) :
    (endAt low high n i).toInt =
      low.toInt + (ofMagnitude false (offset m n i)).toInt64.toInt :=
  (boundary_eq_ok_iff hm hspan hi).mp (h i hi)

theorem endAt_zero (hn : 0 < n) : endAt low high n 0 = low := by
  apply Int64.toInt_inj.mp
  rw [toInt_endAt hm hspan h hn, offset_zero, toInt_toInt64_zero, Int.add_zero]

/-- The ends that are computed ascend. -/
theorem endAt_mono (hij : i ≤ j) (hj : j < n) : endAt low high n i ≤ endAt low high n j := by
  have hoffset := toInt_toInt64_mono (offset_mono m n hij) (offset_le_infinityMagnitude m n j)
  rw [Int64.le_iff_toInt_le, toInt_endAt hm hspan h (Nat.lt_of_le_of_lt hij hj),
    toInt_endAt hm hspan h hj]
  omega

/-- The pieces of a range that is not longer as a float. -/
theorem tiles_piecesOf (hlength : unitsOf m = 0 ∨ unitsPerOne ≤ unitsOf m) (hn : 0 < n)
    (hfew : n ≤ 2 ^ 53) (hshort : (span low high).toInt64.toInt ≤ high.toInt - low.toInt) :
    Tiles low high (piecesOf low high n) := by
  refine ⟨endAt low high n, endAt_zero hm hspan h hn, ?_, ?_, ?_⟩
  · rw [length_piecesOf, endAt_last]
  · rw [length_piecesOf]
    rfl
  · intro i hi
    rw [length_piecesOf] at hi
    rcases Nat.lt_or_eq_of_le hi with hlt | heq
    · exact endAt_mono hm hspan h (Nat.le_succ i) hlt
    · have hoffset := toInt_toInt64_mono (offset_le hm hlength hfew hi) hm.le
      have hlast : i + 1 = n := heq
      rw [hspan] at hshort
      rw [hlast, endAt_last, Int64.le_iff_toInt_le, toInt_endAt hm hspan h hi]
      omega

end Ends

/-- The pieces of a range lie one after the other, the first one starts at the low end and the
last one ends at the high end, and no piece but the last can be inverted.  The last one is not
inverted either if there are no more than `2 ^ 53` pieces and the length of the range, computed
in floats, is not larger than it is. -/
theorem keyRanges_contiguous {pieces : List Binding} (h : keyRanges low high n = .ok pieces) :
    ∃ ends : Nat → Int64, ends 0 = low ∧ ends n = high ∧
      pieces = (List.range n).map (fun i => .row (pieceRow (ends i) (ends (i + 1)))) ∧
      (∀ i, i + 1 < n → ends i ≤ ends (i + 1)) ∧
      (∀ i < n, low ≤ ends i) ∧
      (n ≤ 2 ^ 53 → (span low high).toInt64.toInt ≤ high.toInt - low.toInt →
        Tiles low high pieces) := by
  obtain ⟨hle, hn⟩ := valid_of_keyRanges h
  obtain ⟨m, hm, hspan, hlength⟩ := span_eq hle
  obtain ⟨hends, rfl⟩ := (keyRanges_eq_ok_iff hle hn).mp h
  refine ⟨endAt low high n, endAt_zero hm hspan hends hn, endAt_last low high n, rfl, ?_, ?_, ?_⟩
  · exact fun i hi => endAt_mono hm hspan hends (Nat.le_succ i) hi
  · intro i hi
    have habove := endAt_mono hm hspan hends (Nat.zero_le i) hi
    rwa [endAt_zero hm hspan hends hn] at habove
  · exact tiles_piecesOf hm hspan hends hlength hn

/-- Three pieces of ten keys. -/
theorem keyRanges_contiguous_three :
    ∃ pieces, keyRanges 0 10 3 = .ok pieces ∧ Tiles 0 10 pieces := by
  have hends : ∀ i < 3, boundary 0 10 3 i = .ok (endAt 0 10 3 i) := by decide +kernel
  have h := (keyRanges_eq_ok_iff (by decide) (by decide)).mpr ⟨hends, rfl⟩
  obtain ⟨ends, -, -, -, -, -, htiles⟩ := keyRanges_contiguous h
  exact ⟨_, h, htiles (by decide) (by decide +kernel)⟩

/-- In a range of two keys above `2 ^ 60`, whose ends are 256 apart as floats, the first of two
pieces runs past the high end and the second one is inverted. -/
theorem not_tiles_two_large_keys :
    ∃ pieces, keyRanges 1152921504606847103 1152921504606847105 2 = .ok pieces ∧
      ¬ Tiles 1152921504606847103 1152921504606847105 pieces := by
  have hmiddle : boundary 1152921504606847103 1152921504606847105 2 1 =
      .ok 1152921504606847231 := by decide +kernel
  have hends : ∀ i < 2, boundary 1152921504606847103 1152921504606847105 2 i =
      .ok (endAt 1152921504606847103 1152921504606847105 2 i) := by decide +kernel
  refine ⟨_, (keyRanges_eq_ok_iff (by decide) (by decide)).mpr ⟨hends, rfl⟩, ?_⟩
  rintro ⟨ends, -, hlast, hpieces, hordered⟩
  have hsecond := Option.some.inj (congrArg (fun l => l[1]?) hpieces)
  obtain ⟨hlow, -⟩ := pieceRow_inj.mp (Binding.row.inj hsecond)
  have hhigh : ends 2 = 1152921504606847105 := hlast
  have hle : ends 1 ≤ ends 2 := hordered 1 (by decide)
  rw [← hlow, endAt_eq hmiddle, hhigh] at hle
  exact absurd hle (by decide)

/-- Between `-2 ^ 53` and `2 ^ 53`, lengths are exact. -/
theorem toInt64_span (hlow : -2 ^ 53 ≤ low.toInt) (hhigh : high.toInt ≤ 2 ^ 53) (hle : low ≤ high)
    (hlength : high.toInt - low.toInt ≤ 2 ^ 53) :
    (span low high).toInt64.toInt = high.toInt - low.toInt := by
  have hordered := Int64.le_iff_toInt_le.mp hle
  have hdifference : ((Binary64.ofInt high.toInt).signedUnits -
      (Binary64.ofInt low.toInt).signedUnits).toNat =
      (high.toInt - low.toInt).toNat * unitsPerOne := by
    rw [signedUnits_ofInt_of_le (by omega), signedUnits_ofInt_of_le (by omega), ← Int.sub_mul]
    obtain ⟨length, heq⟩ := Int.eq_ofNat_of_zero_le (Int.sub_nonneg.mpr hordered)
    rw [heq, ← Int.natCast_mul, Int.toNat_natCast, Int.toNat_natCast]
  have hnat : (high.toInt - low.toInt).toNat ≤ 2 ^ 53 := by omega
  have hspan : span low high = ofMagnitude false (natMagnitude (high.toInt - low.toInt).toNat) := by
    have hsub := sub_ofInt (natAbs_toInt_le low) (natAbs_toInt_le high) hordered
    rw [hdifference] at hsub
    exact hsub
  rw [hspan, toInt_toInt64_ofMagnitude (natMagnitude_lt (hnat.trans (by decide))),
    nearestNat_of_unitsOf_eq (unitsOf_natMagnitude hnat)]
  omega

/-- Ranges between `-2 ^ 53` and `2 ^ 53` are given in pieces that cover them. -/
theorem keyRanges_tiles (hlow : -2 ^ 53 ≤ low.toInt) (hhigh : high.toInt ≤ 2 ^ 53)
    (hle : low ≤ high) (hlength : high.toInt - low.toInt ≤ 2 ^ 53) (hn : 0 < n)
    (hfew : n ≤ 2 ^ 53) : ∃ pieces, keyRanges low high n = .ok pieces ∧ Tiles low high pieces := by
  obtain ⟨m, hm, hspan, hunits⟩ := span_eq hle
  have hexact := toInt64_span hlow hhigh hle hlength
  have hends : Computes low high n := by
    intro i hi
    have hbelow := toInt_toInt64_mono (offset_le hm hunits hfew hi) hm.le
    have habove := toInt_toInt64_mono (Nat.zero_le (offset m n i))
      (offset_le_infinityMagnitude m n i)
    rw [← hspan, hexact] at hbelow
    rw [toInt_toInt64_zero] at habove
    have hvalue : (Int64.ofInt
        (low.toInt + (ofMagnitude false (offset m n i)).toInt64.toInt)).toInt =
        low.toInt + (ofMagnitude false (offset m n i)).toInt64.toInt :=
      Int64.toInt_ofInt_of_le (by omega) (by omega)
    exact boundary_eq_endAt ((boundary_eq_ok_iff hm hspan hi).mpr hvalue)
  exact ⟨_, (keyRanges_eq_ok_iff hle hn).mpr ⟨hends, rfl⟩,
    tiles_piecesOf hm hspan hends hunits hn hfew hexact.le⟩

end Partitioning
end OrderedQuery
