import OrderedQuery.Key.Decoding
import OrderedQuery.Proofs.Key.Order

/-!
# Reading encodings back

Decoding an encoding, whatever follows it, gives the value back and the bytes that follow.
A float comes back as itself, apart from a NaN, which comes back as the one NaN that stands
for all of them.  Encodings put one after the other are therefore told apart: each read takes
up exactly the bytes of its value.
-/

namespace OrderedQuery

/-- The value that comes back when an encoding is read: all NaNs are one. -/
def Value.canonical : Value → Value
  | .float x => .float x.canonical
  | v => v

theorem Value.conforms_canonical (v : Value) (type : ValueType) :
    v.canonical.conforms type = v.conforms type := by
  cases v <;> rfl

namespace Utf8

/-- A text is read back from its bytes. -/
theorem decode_utf8 (s : String) : decode (utf8 s) = .ok s := by
  have hbytes : (⟨(utf8 s).toArray⟩ : ByteArray) = s.toByteArray := by
    simp [utf8]
  rw [decode, hbytes, String.fromUTF8?, dif_pos s.isValidUTF8]
  rfl

end Utf8

namespace Binary64

theorem ofOrderKey_orderKey (x : Binary64) : ofOrderKey x.orderKey = x.canonical := by
  have hbits := x.bits.toNat_lt
  unfold orderKey canonical
  by_cases hnan : x.isNaN
  · simp [hnan, ofOrderKey]
  · have hmagnitude : x.magnitude ≤ infinityMagnitude := by simpa [isNaN] using hnan
    have hinfinity : infinityMagnitude < 2 ^ 63 - 1 := by decide
    rw [if_neg hnan, if_neg hnan]
    by_cases hsign : x.isNegative
    · have hlarge : 2 ^ 63 ≤ x.bits.toNat := by simpa [isNegative] using hsign
      rw [if_pos hsign, ofOrderKey, if_neg (by omega), if_neg (by omega)]
      have hsub : 2 ^ 64 - 1 - (2 ^ 64 - 1 - x.bits.toNat) = x.bits.toNat := by omega
      rw [hsub, UInt64.ofNat_toNat]
    · have hsmall : x.bits.toNat < 2 ^ 63 := by simpa [isNegative] using hsign
      have hbound : x.bits.toNat < 2 ^ 63 - 1 := by
        rw [magnitude, Nat.mod_eq_of_lt hsmall] at hmagnitude
        omega
      rw [if_neg hsign, ofOrderKey, if_neg (by omega), if_pos (by omega),
        Nat.add_sub_cancel_left, UInt64.ofNat_toNat]

end Binary64

namespace Key

open Bytes

theorem escape_ne_nil (b : Bytes) : escape b ≠ [] := by
  cases b with
  | nil => simp [escape]
  | cons c b =>
      rw [escape]
      split <;> simp

theorem unescape_escape (b rest : Bytes) : unescape (escape b ++ rest) = .ok (b, rest) := by
  induction b with
  | nil => simp [escape, unescape]
  | cons c b ih =>
      rw [escape]
      split
      · rename_i hc
        simp [unescape, ih, hc, Except.map]
      · rename_i hc
        obtain ⟨d, more, hmore⟩ : ∃ d more, escape b ++ rest = d :: more := by
          obtain ⟨d, more, hmore⟩ := List.exists_cons_of_ne_nil (escape_ne_nil b)
          exact ⟨d, more ++ rest, by rw [hmore, List.cons_append]⟩
        rw [List.cons_append, hmore, unescape, if_neg hc, ← hmore, ih]
        rfl

theorem word_bigEndian (part : Part) {n : Nat} (hn : n < 2 ^ 64) (rest : Bytes) :
    word part (bigEndian 8 n ++ rest) = .ok (n, rest) := by
  have hlength : (bigEndian 8 n).length = 8 := length_bigEndian 8 n
  have hshort : ¬(bigEndian 8 n ++ rest).length < 8 := by
    rw [List.length_append, hlength]
    omega
  rw [word, if_neg hshort, List.take_append_of_le_length (by omega),
    List.drop_append_of_le_length (by omega), List.take_of_length_le (by omega),
    List.drop_of_length_le (by omega), toNatBig_bigEndian, Nat.mod_eq_of_lt (by simpa using hn)]
  rfl

theorem ofInt_shifted (i : Int64) : Int64.ofInt ((Value.shifted i : Int) - 2 ^ 63) = i := by
  have hlow := i.le_toInt
  have hcast : ((Value.shifted i : Int) - 2 ^ 63) = i.toInt := by
    unfold Value.shifted
    omega
  rw [hcast, Int64.ofInt_toInt]

theorem decodeAscending_int (b : Bytes) :
    decodeAscending (2 :: b) =
      (word .int b).map fun (n, rest) => (.int (.ofInt (n - 2 ^ 63)), rest) := by
  rw [decodeAscending.eq_def]
  rfl

theorem decodeAscending_float (b : Bytes) :
    decodeAscending (3 :: b) =
      (word .float b).map fun (n, rest) => (.float (.ofOrderKey n), rest) := by
  rw [decodeAscending.eq_def]
  rfl

theorem decodeAscending_ascending (v : Value) (rest : Bytes) :
    decodeAscending (ascending v ++ rest) = .ok (v.canonical, rest) := by
  cases v with
  | null => rfl
  | bool b => cases b <;> rfl
  | int i =>
      show decodeAscending (2 :: (bigEndian 8 (Value.shifted i) ++ rest)) = _
      rw [decodeAscending_int, word_bigEndian .int (Value.shifted_lt i)]
      show Except.ok (Value.int (.ofInt ((Value.shifted i : Int) - 2 ^ 63)), rest) = _
      rw [ofInt_shifted]
      rfl
  | float x =>
      show decodeAscending (3 :: (bigEndian 8 x.orderKey ++ rest)) = _
      rw [decodeAscending_float, word_bigEndian .float x.orderKey_lt]
      show Except.ok (Value.float (.ofOrderKey x.orderKey), rest) = _
      rw [Binary64.ofOrderKey_orderKey]
      rfl
  | string s =>
      show (unescape (escape (utf8 s) ++ rest) >>= _) = _
      rw [unescape_escape]
      dsimp only [bind, Except.bind]
      rw [Utf8.decode_utf8]
      rfl
  | bytes b =>
      show (unescape (escape b ++ rest)).map _ = _
      rw [unescape_escape]
      rfl

theorem oriented_append (descending : Bool) (p q : Bytes) :
    oriented descending (p ++ q) = oriented descending p ++ oriented descending q := by
  cases descending with
  | false => rfl
  | true => exact complement_append p q

theorem oriented_oriented (descending : Bool) (p : Bytes) :
    oriented descending (oriented descending p) = p := by
  cases descending with
  | false => rfl
  | true => exact complement_complement p

/-- A value is read back from its encoding in a column of either direction. -/
theorem decode_encode (descending : Bool) (v : Value) (rest : Bytes) :
    decode descending (encode descending v ++ rest) = .ok (v.canonical, rest) := by
  rw [decode, oriented_append, encode, oriented_oriented, decodeAscending_ascending]
  show Except.ok (v.canonical, oriented descending (oriented descending rest)) = _
  rw [oriented_oriented]

/-! ## Where each value ends -/

/-- Reads one value for every direction, each from where the last one ended, together with
the bytes it takes up. -/
def pieces : List Bool → Bytes → Except Fault (List (Value × Bytes) × Bytes)
  | [], b => .ok ([], b)
  | descending :: more, b => do
      let (v, rest) ← decode descending b
      let (ps, last) ← pieces more rest
      .ok ((v, b.take (b.length - rest.length)) :: ps, last)

theorem decodeAll_eq_pieces (directions : List Bool) (b : Bytes) :
    decodeAll directions b =
      (pieces directions b).map fun (ps, rest) => (ps.map Prod.fst, rest) := by
  induction directions generalizing b with
  | nil => rfl
  | cons descending more ih =>
      rw [decodeAll, pieces]
      cases decode descending b with
      | error e => rfl
      | ok r =>
          dsimp only [bind, Except.bind]
          rw [ih]
          cases pieces more r.2 with
          | error e => rfl
          | ok p => rfl

/-- The bytes taken up by each value are those written for it. -/
theorem pieces_encodeAll (items : List (Value × Bool)) (rest : Bytes) :
    pieces (items.map Prod.snd) (encodeAll items ++ rest) =
      .ok (items.map fun (v, descending) => (v.canonical, encode descending v), rest) := by
  induction items with
  | nil => rfl
  | cons item items ih =>
      obtain ⟨v, descending⟩ := item
      let tail := encodeAll items ++ rest
      have htaken : (encode descending v ++ tail).take
          ((encode descending v ++ tail).length - tail.length) = encode descending v := by
        rw [List.length_append, Nat.add_sub_cancel, List.take_left]
      rw [List.map_cons, encodeAll_cons, List.append_assoc, pieces, decode_encode]
      dsimp only [bind, Except.bind]
      rw [ih, htaken]
      rfl

/-- The values of all columns are read back from their concatenated encodings. -/
theorem decodeAll_encodeAll {directions : List Bool} {vs : List Value}
    (hlength : vs.length = directions.length) (rest : Bytes) :
    decodeAll directions (encodeAll (vs.zip directions) ++ rest) =
      .ok (vs.map Value.canonical, rest) := by
  have hread := pieces_encodeAll (vs.zip directions) rest
  rw [List.map_snd_zip hlength.ge] at hread
  rw [decodeAll_eq_pieces, hread]
  simp only [Except.map, List.map_map]
  have hvalues := congrArg (List.map Value.canonical) (List.map_fst_zip hlength.le)
  rw [List.map_map] at hvalues
  rw [← hvalues]
  rfl

/-- Values read from the same bytes in the same directions are the same up to the NaN that
stands for all, whatever follows them. -/
theorem canonical_eq_of_encodeAll_append_eq {items items' : List (Value × Bool)}
    {rest rest' : Bytes} (hdirections : items.map Prod.snd = items'.map Prod.snd)
    (hbytes : encodeAll items ++ rest = encodeAll items' ++ rest') :
    items.map (fun (v, _) => v.canonical) = items'.map (fun (v, _) => v.canonical) ∧
      rest = rest' := by
  have hread := pieces_encodeAll items rest
  rw [hdirections, hbytes, pieces_encodeAll] at hread
  obtain ⟨hpieces, hrest⟩ := Prod.mk.inj (Except.ok.inj hread)
  have hvalues := congrArg (List.map Prod.fst) hpieces
  simp only [List.map_map] at hvalues
  exact ⟨hvalues.symm, hrest.symm⟩

/-- Encodings written one after the other, with any bytes behind them, are read back one by one:
every value comes back, a NaN as the one that stands for all, each read takes up exactly the bytes
written for its value, and what is left are the bytes behind them.  No other values have these
bytes in the same directions. -/
theorem encodeAll_unambiguous (items : List (Value × Bool)) (rest : Bytes) :
    pieces (items.map Prod.snd) (encodeAll items ++ rest) =
        .ok (items.map fun (v, descending) => (v.canonical, encode descending v), rest) ∧
      decodeAll (items.map Prod.snd) (encodeAll items ++ rest) =
        .ok (items.map fun (v, _) => v.canonical, rest) ∧
      (∀ x : Binary64, (Value.float x).canonical = .float (if x.isNaN then .nan else x)) ∧
      (∀ v : Value, v.type? ≠ some .float → v.canonical = v) ∧
      ∀ (items' : List (Value × Bool)) (rest' : Bytes),
        items'.map Prod.snd = items.map Prod.snd →
          encodeAll items' ++ rest' = encodeAll items ++ rest →
            items'.map (fun (v, _) => v.canonical) = items.map (fun (v, _) => v.canonical) ∧
              rest' = rest := by
  refine ⟨pieces_encodeAll items rest, ?_, fun x => rfl, ?_, ?_⟩
  · rw [decodeAll_eq_pieces, pieces_encodeAll]
    simp only [Except.map, List.map_map]
    rfl
  · intro v hv
    cases v with
    | float x => exact absurd rfl hv
    | _ => rfl
  · intro items' rest' hdirections hbytes
    exact canonical_eq_of_encodeAll_append_eq hdirections hbytes

/-- A text that ends in a zero byte in a descending column, the negative zero and a NaN, in
front of bytes that look like more of them. -/
theorem encodeAll_unambiguous_zeros :
    let items : List (Value × Bool) :=
      [(.bytes [1, 0], true), (.float (.zero true), false), (.float ⟨0xFFF0000000000001⟩, true)]
    let items' : List (Value × Bool) :=
      [(.bytes [1, 0], true), (.float (.zero true), false), (.float .nan, true)]
    let rest : Bytes := [0, 1, 0, 0]
    pieces [true, false, true] (encodeAll items ++ rest) =
        .ok (items'.map fun (v, descending) => (v, encode descending v), rest) ∧
      decodeAll [true, false, true] (encodeAll items ++ rest) =
        .ok ([.bytes [1, 0], .float (.zero true), .float .nan], rest) ∧
      encodeAll items' ++ rest = encodeAll items ++ rest ∧
      items'.map (fun (v, _) => v.canonical) = items.map (fun (v, _) => v.canonical) := by
  intro items items' rest
  obtain ⟨hpieces, hvalues, -, -, hsame⟩ := encodeAll_unambiguous items rest
  have hbytes : encodeAll items' ++ rest = encodeAll items ++ rest := by decide
  exact ⟨hpieces, hvalues, hbytes, (hsame items' rest rfl hbytes).1⟩

end Key
end OrderedQuery
