import OrderedQuery.Proofs.Key.Columns
import OrderedQuery.Proofs.Key.RoundTrip
import Mathlib.Data.List.Forall2

/-!
# The bytes that are read

Whatever bytes a value is read from, they are its encoding, with two exceptions: a truth value may
be spelled by any byte, and a NaN by any word in the range of NaNs.  Values of several columns are
read from pieces of the bytes, and these are written again exactly if no piece is such an
exception.
-/

namespace OrderedQuery

/-- The bytes of a text are those it was read from. -/
theorem Utf8.utf8_of_decode {b : Bytes} {s : String} (h : decode b = .ok s) : utf8 s = b := by
  rw [decode, String.fromUTF8?] at h
  split at h
  · rename_i found hfound
    split at hfound
    · obtain rfl := Option.some.inj hfound
      obtain rfl := Except.ok.inj h
      rfl
    · cases hfound
  · cases h

/-- A number is at the place it was read from unless it is a NaN, which is at the last one. -/
theorem Binary64.orderKey_ofOrderKey_iff {n : Nat} (hn : n < 2 ^ 64) :
    (ofOrderKey n).orderKey = n ↔ ((ofOrderKey n).isNaN = true → n = 2 ^ 64 - 1) := by
  constructor
  · intro h hnan
    rw [← h, orderKey_of_isNaN hnan]
  · intro h
    by_cases hnan : (ofOrderKey n).isNaN = true
    · rw [orderKey_of_isNaN hnan, h hnan]
    · have hlast : n ≠ 2 ^ 64 - 1 := by
        rintro rfl
        exact hnan (by decide)
      have hsize : UInt64.size = 2 ^ 64 := rfl
      rw [orderKey, if_neg hnan, ofOrderKey, if_neg hlast]
      by_cases hsign : 2 ^ 63 ≤ n
      · have hbits : (UInt64.ofNat (n - 2 ^ 63)).toNat = n - 2 ^ 63 :=
          UInt64.toNat_ofNat_of_lt' (by rw [hsize]; omega)
        rw [if_pos hsign, if_neg (by simp only [isNegative, hbits, decide_eq_true_eq]; omega)]
        show 2 ^ 63 + (UInt64.ofNat (n - 2 ^ 63)).toNat = n
        omega
      · have hbits : (UInt64.ofNat (2 ^ 64 - 1 - n)).toNat = 2 ^ 64 - 1 - n :=
          UInt64.toNat_ofNat_of_lt' (by rw [hsize]; omega)
        rw [if_neg hsign, if_pos (by simp only [isNegative, hbits, decide_eq_true_eq]; omega)]
        show 2 ^ 64 - 1 - (UInt64.ofNat (2 ^ 64 - 1 - n)).toNat = n
        omega

namespace Key

open Bytes

/-- The bytes spell a value in another way than its encoding does: a truth value by a byte above
one, or a NaN by a word other than the last. -/
inductive Irregular : Bytes → Prop
  | bool {payload : UInt8} (hpayload : 1 < payload) : Irregular [1, payload]
  | nan {word : Bytes} (hlength : word.length = 8)
      (hnan : (Binary64.ofOrderKey (toNatBig word)).isNaN = true)
      (hword : toNatBig word ≠ 2 ^ 64 - 1) : Irregular (3 :: word)

theorem irregular_iff {b : Bytes} :
    Irregular b ↔ (b = [1, b.getD 1 0] ∧ 1 < b.getD 1 0) ∨
      b = 3 :: b.tail ∧ b.tail.length = 8 ∧
        (Binary64.ofOrderKey (toNatBig b.tail)).isNaN = true ∧ toNatBig b.tail ≠ 2 ^ 64 - 1 := by
  constructor
  · intro h
    cases h with
    | bool hpayload => exact .inl ⟨rfl, hpayload⟩
    | nan hlength hnan hword => exact .inr ⟨rfl, hlength, hnan, hword⟩
  · rintro (⟨h, hpayload⟩ | ⟨h, hlength, hnan, hword⟩)
    · rw [h]
      exact .bool hpayload
    · rw [h]
      exact .nan hlength hnan hword

instance (b : Bytes) : Decidable (Irregular b) := decidable_of_iff _ irregular_iff.symm

/-- A value is as long as its encoding where it is read, and stands there as its encoding unless
it is spelled irregularly. -/
structure Spells (descending : Bool) (v : Value) (taken : Bytes) : Prop where
  length : (encode descending v).length = taken.length
  encode_eq_iff : encode descending v = taken ↔ ¬ Irregular (oriented descending taken)

theorem unescape_eq_ok {b raw rest : Bytes} (h : unescape b = .ok (raw, rest)) :
    b = escape raw ++ rest := by
  fun_induction unescape b generalizing raw with
  | case1 => cases h
  | case2 => cases h
  | case3 more =>
      obtain ⟨rfl, rfl⟩ := Prod.mk.inj (Except.ok.inj h)
      rfl
  | case4 more _ ih =>
      cases hmore : unescape more with
      | error e => rw [hmore] at h; cases h
      | ok found =>
          rw [hmore] at h
          obtain ⟨rfl, rfl⟩ := Prod.mk.inj (Except.ok.inj h)
          rw [ih hmore]
          rfl
  | case5 => cases h
  | case6 b c more hb ih =>
      cases hmore : unescape (c :: more) with
      | error e => rw [hmore] at h; cases h
      | ok found =>
          rw [hmore] at h
          obtain ⟨rfl, rfl⟩ := Prod.mk.inj (Except.ok.inj h)
          rw [ih hmore, escape, if_neg hb]
          rfl

theorem word_eq_ok {part : Part} {b rest : Bytes} {n : Nat} (h : word part b = .ok (n, rest)) :
    ∃ w : Bytes, w.length = 8 ∧ b = w ++ rest ∧ n = toNatBig w := by
  rw [word] at h
  split at h
  · cases h
  · rename_i hlong
    obtain ⟨rfl, rfl⟩ := Prod.mk.inj (Except.ok.inj h)
    exact ⟨b.take 8, List.length_take_of_le (Nat.not_lt.mp hlong),
      (List.take_append_drop 8 b).symm, rfl⟩

theorem irregular_bool_iff {payload : UInt8} : Irregular [1, payload] ↔ 1 < payload := by
  constructor
  · intro h
    cases h with
    | bool h => exact h
  · exact .bool

theorem irregular_float_iff {w : Bytes} (hlength : w.length = 8) :
    Irregular (3 :: w) ↔
      (Binary64.ofOrderKey (toNatBig w)).isNaN = true ∧ toNatBig w ≠ 2 ^ 64 - 1 := by
  constructor
  · intro h
    cases h with
    | nan _ hnan hword => exact ⟨hnan, hword⟩
  · rintro ⟨hnan, hword⟩
    exact .nan hlength hnan hword

theorem Spells.of_encode {descending : Bool} {v : Value} {taken : Bytes}
    (h : encode descending v = taken) (hregular : ¬ Irregular (oriented descending taken)) :
    Spells descending v taken :=
  ⟨congrArg List.length h, iff_of_true h hregular⟩

theorem spells_bool (payload : UInt8) : Spells false (.bool (payload != 0)) [1, payload] := by
  have hwritten : (if (payload != 0) = true then 1 else 0) = payload ↔ payload ≤ 1 := by
    by_cases hzero : payload = 0
    · rw [hzero]
      decide
    · rw [if_pos (bne_iff_ne.mpr hzero), UInt8.le_iff_toNat_le, ← UInt8.toNat_inj]
      rw [← UInt8.toNat_inj] at hzero
      have hone : (1 : UInt8).toNat = 1 := rfl
      have hnone : (0 : UInt8).toNat = 0 := rfl
      omega
  refine ⟨rfl, ?_⟩
  rw [oriented, if_neg (by decide), irregular_bool_iff, UInt8.not_lt, ← hwritten]
  show [1, _] = [1, _] ↔ _
  simp

theorem spells_int {w : Bytes} (hlength : w.length = 8) :
    Spells false (.int (.ofInt ((toNatBig w : Int) - 2 ^ 63))) (2 :: w) := by
  refine .of_encode ?_ (fun h => by cases h)
  have hsmall := toNatBig_lt w
  rw [hlength] at hsmall
  have hshifted : Value.shifted (.ofInt ((toNatBig w : Int) - 2 ^ 63)) = toNatBig w := by
    rw [Value.shifted, Int64.toInt_ofInt_of_le (by omega) (by omega)]
    omega
  show 2 :: bigEndian 8 (Value.shifted _) = 2 :: w
  rw [hshifted, ← hlength, bigEndian_toNatBig]

theorem spells_float {w : Bytes} (hlength : w.length = 8) :
    Spells false (.float (.ofOrderKey (toNatBig w))) (3 :: w) := by
  have hsmall := toNatBig_lt w
  rw [hlength] at hsmall
  have hbytes (n : Nat) (hn : n < 2 ^ 64) : bigEndian 8 n = w ↔ n = toNatBig w := by
    constructor
    · intro h
      rw [← h, toNatBig_bigEndian, Nat.mod_eq_of_lt (by omega)]
    · rintro rfl
      rw [← hlength, bigEndian_toNatBig]
  constructor
  · show (3 :: bigEndian 8 _).length = _
    rw [List.length_cons, List.length_cons, length_bigEndian, hlength]
  · show 3 :: bigEndian 8 _ = 3 :: w ↔ ¬ Irregular (3 :: w)
    rw [List.cons.injEq, and_iff_right rfl, hbytes _ (Binary64.orderKey_lt _),
      Binary64.orderKey_ofOrderKey_iff (by omega), irregular_float_iff hlength, not_and, not_not]

/-- A number is read from the eight bytes behind its tag. -/
theorem exists_taken_of_word {part : Part} {tag : UInt8} {more rest : Bytes} {f : Nat → Value}
    {v : Value}
    (hspells : ∀ {w : Bytes}, w.length = 8 → Spells false (f (toNatBig w)) (tag :: w))
    (h : ((word part more).map fun found => (f found.1, found.2)) = .ok (v, rest)) :
    ∃ taken, tag :: more = taken ++ rest ∧ Spells false v taken := by
  cases hword : word part more with
  | error e => rw [hword] at h; cases h
  | ok found =>
      rw [hword] at h
      obtain ⟨rfl, rfl⟩ := Prod.mk.inj (Except.ok.inj h)
      obtain ⟨w, hlength, rfl, hn⟩ := word_eq_ok hword
      rw [hn]
      exact ⟨tag :: w, rfl, hspells hlength⟩

/-- What is read in an ascending column, and where it ends. -/
theorem decodeAscending_eq_ok {b rest : Bytes} {v : Value}
    (h : decodeAscending b = .ok (v, rest)) :
    ∃ taken, b = taken ++ rest ∧ Spells false v taken := by
  unfold decodeAscending at h
  split at h
  · cases h
  · rename_i tag more
    split at h
    · rename_i htag
      obtain rfl : tag = 0 := UInt8.toNat_inj.mp htag
      obtain ⟨rfl, rfl⟩ := Prod.mk.inj (Except.ok.inj h)
      exact ⟨[0], rfl, .of_encode rfl nofun⟩
    · rename_i htag
      obtain rfl : tag = 1 := UInt8.toNat_inj.mp htag
      split at h
      · cases h
      · rename_i payload more
        obtain ⟨rfl, rfl⟩ := Prod.mk.inj (Except.ok.inj h)
        exact ⟨[1, payload], rfl, spells_bool payload⟩
    · rename_i htag
      obtain rfl : tag = 2 := UInt8.toNat_inj.mp htag
      exact exists_taken_of_word (f := fun n => .int (.ofInt (n - 2 ^ 63))) spells_int h
    · rename_i htag
      obtain rfl : tag = 3 := UInt8.toNat_inj.mp htag
      exact exists_taken_of_word (f := fun n => .float (.ofOrderKey n)) spells_float h
    · rename_i htag
      obtain rfl : tag = 4 := UInt8.toNat_inj.mp htag
      cases hraw : unescape more with
      | error e => rw [hraw] at h; cases h
      | ok found =>
          obtain ⟨raw, last⟩ := found
          simp only [hraw, bind, Except.bind] at h
          split at h
          · rename_i s hs
            obtain ⟨rfl, rfl⟩ := Prod.mk.inj (Except.ok.inj h)
            rw [unescape_eq_ok hraw, ← Utf8.utf8_of_decode hs]
            exact ⟨ascending (.string s), rfl, .of_encode rfl nofun⟩
          · cases h
    · rename_i htag
      obtain rfl : tag = 5 := UInt8.toNat_inj.mp htag
      cases hraw : unescape more with
      | error e => rw [hraw] at h; cases h
      | ok found =>
          rw [hraw] at h
          obtain ⟨rfl, rfl⟩ := Prod.mk.inj (Except.ok.inj h)
          rw [unescape_eq_ok hraw]
          exact ⟨ascending (.bytes found.1), rfl, .of_encode rfl nofun⟩
    · cases h

theorem length_oriented (descending : Bool) (b : Bytes) :
    (oriented descending b).length = b.length := by
  cases descending with
  | false => rfl
  | true => exact List.length_map _

theorem Spells.oriented {v : Value} {taken : Bytes} (h : Spells false v taken)
    (descending : Bool) : Spells descending v (Key.oriented descending taken) := by
  have hinjective : Function.Injective (Key.oriented descending) :=
    Function.Involutive.injective (oriented_oriented descending)
  refine ⟨?_, ?_⟩
  · rw [encode, length_oriented, length_oriented]
    exact h.length
  · rw [encode, hinjective.eq_iff, oriented_oriented]
    exact h.encode_eq_iff

/-- What is read in a column, and where it ends. -/
theorem decode_eq_ok {descending : Bool} {b rest : Bytes} {v : Value}
    (h : decode descending b = .ok (v, rest)) :
    ∃ taken, b = taken ++ rest ∧ Spells descending v taken := by
  rw [decode] at h
  cases hread : decodeAscending (oriented descending b) with
  | error e => rw [hread] at h; cases h
  | ok found =>
      rw [hread] at h
      obtain ⟨rfl, rfl⟩ := Prod.mk.inj (Except.ok.inj h)
      obtain ⟨taken, hbytes, hspells⟩ := decodeAscending_eq_ok hread
      refine ⟨oriented descending taken, ?_, hspells.oriented descending⟩
      rw [← oriented_append, ← hbytes, oriented_oriented]

/-! ## Several columns -/

theorem pieces_eq_ok {directions : List Bool} {b rest : Bytes} {ps : List (Value × Bytes)}
    (h : pieces directions b = .ok (ps, rest)) :
    b = ps.flatMap Prod.snd ++ rest ∧
      List.Forall₂ (fun p descending => Spells descending p.1 p.2) ps directions := by
  induction directions generalizing b ps with
  | nil =>
      obtain ⟨rfl, rfl⟩ := Prod.mk.inj (Except.ok.inj h)
      exact ⟨rfl, .nil⟩
  | cons descending more ih =>
      rw [pieces] at h
      cases hfirst : decode descending b with
      | error e => rw [hfirst] at h; cases h
      | ok found =>
          obtain ⟨v, middle⟩ := found
          simp only [hfirst, bind, Except.bind] at h
          cases hmore : pieces more middle with
          | error e => rw [hmore] at h; cases h
          | ok found =>
              obtain ⟨qs, last⟩ := found
              simp only [hmore] at h
              obtain ⟨rfl, rfl⟩ := Prod.mk.inj (Except.ok.inj h)
              obtain ⟨taken, rfl, hspells⟩ := decode_eq_ok hfirst
              obtain ⟨rfl, hrest⟩ := ih hmore
              have htaken : (taken ++ (qs.flatMap Prod.snd ++ last)).take
                  ((taken ++ (qs.flatMap Prod.snd ++ last)).length -
                    (qs.flatMap Prod.snd ++ last).length) = taken := by
                rw [List.length_append, Nat.add_sub_cancel, List.take_left]
              rw [htaken, List.flatMap_cons, List.append_assoc]
              exact ⟨rfl, .cons hspells hrest⟩

/-- Where the reading of several columns ends is within the bytes it began with. -/
theorem isSuffix_of_decodeAll {directions : List Bool} {b rest : Bytes} {vs : List Value}
    (h : decodeAll directions b = .ok (vs, rest)) : rest <:+ b := by
  rw [decodeAll_eq_pieces] at h
  cases hread : pieces directions b with
  | error e => rw [hread] at h; cases h
  | ok found =>
      rw [hread] at h
      obtain ⟨rfl, rfl⟩ := Prod.mk.inj (Except.ok.inj h)
      exact ⟨_, (pieces_eq_ok hread).1.symm⟩

/-- Pieces are written again exactly if none of them is irregular. -/
theorem encodeAll_eq_flatMap_iff {directions : List Bool} {ps : List (Value × Bytes)}
    (h : List.Forall₂ (fun p descending => Spells descending p.1 p.2) ps directions) :
    encodeAll ((ps.map Prod.fst).zip directions) = ps.flatMap Prod.snd ↔
      ∀ p ∈ ps.zip directions, ¬ Irregular (oriented p.2 p.1.2) := by
  induction h with
  | nil => exact iff_of_true rfl nofun
  | @cons p descending ps directions hspells _ ih =>
      rw [List.map_cons, List.zip_cons_cons, encodeAll_cons, List.flatMap_cons,
        List.zip_cons_cons, List.forall_mem_cons, ← ih, ← hspells.encode_eq_iff]
      constructor
      · -- an irregular piece is as long as the encoding, so the pieces behind it stay in place
        intro heq
        exact List.append_inj heq hspells.length
      · rintro ⟨hfirst, hrest⟩
        rw [hfirst, hrest]

end Key
end OrderedQuery
