import OrderedQuery.Proofs.Index.RoundTrip
import OrderedQuery.Proofs.Key.Accepted

/-!
# Keys that are read

Reading a key takes one piece of it for each stored column.  What is read is a row with one value
for each column, and if the values conform to the columns, the row has a key: the one that was
read, unless a column spells its value irregularly.
-/

namespace OrderedQuery
namespace Index

variable {ix : Index}

theorem length_descents (hv : ix.Valid) {g : CoordinateGroup} (hg : ix.spatial = some g) :
    ix.descents.length + 1 = ix.columns.length := by
  have hafter := after_eq hv hg
  have hwithin := hv.within g hg
  rw [descents_of_spatial_eq_some hg, List.length_append, List.length_cons, List.length_map,
    List.length_map, length_take_columns hv hg, List.length_drop]
  omega

/-- A stored group is replaced by coordinates that are stored as it. -/
theorem exists_group_of_expandOrdinal (hv : ix.Valid) {g : CoordinateGroup}
    (hg : ix.spatial = some g) {stored values : List Value}
    (h : ix.expandOrdinal g stored = .ok values) :
    ∃ s group, stored[g.first]? = some s ∧
      values = stored.take g.first ++ group ++ stored.drop (g.first + 1) ∧
      group.length = 2 ∧ InSpace group ∧ groupValue group = s := by
  rw [expandOrdinal] at h
  cases hs : stored[g.first]? with
  | none => rw [hs] at h; cases h
  | some s =>
      rw [hs] at h
      cases s with
      | int ordinal =>
          obtain ⟨a, b, hpoint, -, -, hz⟩ := Space.latLon.exists_unshuffle_eq ordinal
          have hspace : Space.ofDimensions g.dimensions = .ok .latLon := by
            rw [hv.dimensions g hg]
            rfl
          rw [hspace] at h
          obtain rfl := Except.ok.inj h
          refine ⟨.int ordinal, [.int a, .int b], rfl, by rw [hpoint]; rfl, rfl, ?_, ?_⟩
          · exact (inSpace_iff rfl).mpr (.inr ⟨a, b, ordinal, rfl, hz⟩)
          · rw [groupValue, hz]
      | null =>
          obtain rfl := Except.ok.inj h
          refine ⟨.null, [.null, .null], rfl, by rw [hv.dimensions g hg]; rfl, rfl, ?_, rfl⟩
          exact (inSpace_iff rfl).mpr (.inl rfl)
      | _ => cases h

theorem expandOrdinal_eq_ok (hv : ix.Valid) {g : CoordinateGroup} (hg : ix.spatial = some g)
    {stored values : List Value} (hlength : stored.length = ix.descents.length)
    (h : ix.expandOrdinal g stored = .ok values) :
    values.length = ix.columns.length ∧ ix.collapse values = stored ∧
      InSpace ((values.drop g.first).take g.dimensions) := by
  obtain ⟨s, group, hs, hvalues, hgroup, hspace, hordinal⟩ :=
    exists_group_of_expandOrdinal hv hg h
  obtain ⟨hfirst, rfl⟩ := List.getElem?_eq_some_iff.mp hs
  have hbefore : (stored.take g.first).length = g.first :=
    List.length_take_of_le (Nat.le_of_lt hfirst)
  have hcount := length_descents hv hg
  refine ⟨?_, ?_, ?_⟩
  · rw [hvalues, List.length_append, List.length_append, hbefore, hgroup, List.length_drop]
    omega
  · rw [hvalues, collapse_append hv hg hbefore hgroup, hordinal,
      ← List.drop_eq_getElem_cons hfirst, List.take_append_drop]
  · rw [hvalues, group_append hv hg hbefore hgroup]
    exact hspace

/-- Reading a key gives one value for each column, and coordinates that are points of the space or
null throughout; what is stored are the values of the pieces of the key. -/
theorem decodeRow_eq_ok (hv : ix.Valid) {key : Bytes} {values : List Value}
    (h : ix.decodeRow key = .ok values) :
    values.length = ix.columns.length ∧
      (∀ g, ix.spatial = some g → InSpace ((values.drop g.first).take g.dimensions)) ∧
      ∃ ps, Key.pieces ix.descents key = .ok (ps, []) ∧ ix.collapse values = ps.map Prod.fst := by
  have hdirections : ix.physicalDirections.map (!·) = ix.descents := rfl
  rw [decodeRow, hdirections, Key.decodeAll_eq_pieces] at h
  cases hread : Key.pieces ix.descents key with
  | error e => rw [hread] at h; cases h
  | ok found =>
      obtain ⟨ps, rest⟩ := found
      rw [hread] at h
      simp only [Except.map, Except.mapError, bind, Except.bind] at h
      split at h
      · rename_i hempty
        obtain rfl := List.isEmpty_iff.mp hempty
        have hlength : (ps.map Prod.fst).length = ix.descents.length := by
          rw [List.length_map]
          exact (Key.pieces_eq_ok hread).2.length_eq
        split at h
        · rename_i hg
          obtain rfl := Except.ok.inj h
          refine ⟨?_, fun g hg' => ?_, ps, rfl, collapse_of_none hg _⟩
          · rw [hlength, descents_of_spatial_eq_none hg, List.length_map]
          · rw [hg] at hg'
            cases hg'
        · rename_i g hg
          obtain ⟨hcount, hcollapse, hspace⟩ := expandOrdinal_eq_ok hv hg hlength h
          refine ⟨hcount, fun g' hg' => ?_, ps, rfl, hcollapse⟩
          obtain rfl := Option.some.inj (hg'.symm.trans hg)
          exact hspace
      · cases h

/-- A row that was read and conforms to the columns is written with the values of the pieces. -/
theorem encodeRow_of_decodeRow (hv : ix.Valid) {key : Bytes} {values : List Value}
    (h : ix.decodeRow key = .ok values)
    (hconforms : ∀ p ∈ values.zip ix.columns, p.1.conforms p.2.type = true) :
    ∃ ps, Key.pieces ix.descents key = .ok (ps, []) ∧
      ix.encodeRow values = .ok (Key.encodeAll ((ps.map Prod.fst).zip ix.descents)) := by
  obtain ⟨hlength, hspace, ps, hread, hcollapse⟩ := decodeRow_eq_ok hv h
  obtain ⟨again, hagain⟩ := (exists_encodeRow_iff hv).mpr
    ⟨hlength, (storable_iff hv hlength).mpr ⟨hconforms, hspace⟩⟩
  obtain ⟨-, -, rfl⟩ := encodeRow_eq_ok hv hagain
  rw [hcollapse] at hagain
  exact ⟨ps, hread, hagain⟩

/-- Bytes from which a value is read begin with its encoding, unless they spell a truth value by a
byte above one or a NaN by a word other than the last.  A key from which a row is read is made of
such bytes, one piece for each stored column, and nothing is read behind its end.  If the values
conform to the columns, there is one for each of them, and the row has a key: the same, but for
the pieces that are spelled in this way. -/
theorem decode_accepts_encodings :
    (∀ descending b v rest, Key.decode descending b = .ok (v, rest) →
      ∃ taken, b = taken ++ rest ∧
        (Key.encode descending v = taken ↔ ¬ Key.Irregular (Key.oriented descending taken))) ∧
      ∀ (d : Draft) (ix : Index), d.build = .ok ix → ∀ key,
        (∀ m vs rest, Key.decodeAll (ix.descents.take m) key = .ok (vs, rest) → rest <:+ key) ∧
        ∀ values, ix.decodeRow key = .ok values →
          (∀ p ∈ values.zip ix.columns, p.1.conforms p.2.type = true) →
            values.length = ix.columns.length ∧
            ∃ ps again, Key.pieces ix.descents key = .ok (ps, []) ∧ key = ps.flatMap Prod.snd ∧
              ix.encodeRow values = .ok again ∧
              again = Key.encodeAll ((ps.map Prod.fst).zip ix.descents) ∧
              List.Forall₂ (fun p descending => Key.encode descending p.1 = p.2 ↔
                ¬ Key.Irregular (Key.oriented descending p.2)) ps ix.descents ∧
              (again = key ↔
                ∀ p ∈ ps.zip ix.descents, ¬ Key.Irregular (Key.oriented p.2 p.1.2)) := by
  refine ⟨?_, fun d ix hdraft key => ⟨?_, ?_⟩⟩
  · intro descending b v rest h
    obtain ⟨taken, hbytes, hspells⟩ := Key.decode_eq_ok h
    exact ⟨taken, hbytes, hspells.encode_eq_iff⟩
  · intro m vs rest
    exact Key.isSuffix_of_decodeAll
  · intro values h hconforms
    have hv := valid_of_build hdraft
    obtain ⟨ps, hread, hagain⟩ := encodeRow_of_decodeRow hv h hconforms
    obtain ⟨hkey, hspells⟩ := Key.pieces_eq_ok hread
    rw [List.append_nil] at hkey
    refine ⟨(decodeRow_eq_ok hv h).1, ps, _, hread, hkey, hagain, rfl,
      hspells.imp fun _ _ hp => hp.encode_eq_iff, ?_⟩
    conv_lhs => rw [hkey]
    exact Key.encodeAll_eq_flatMap_iff hspells

/-- Two spellings of one row: its key, and the bytes in which the truth value is spelled by a two
and the NaN by a word of its own. -/
theorem decode_accepts_encodings_two_spellings :
    let columns : List Column := [⟨"b", .bool, false, .declared⟩, ⟨"x", .int, true, .declared⟩,
      ⟨"y", .int, true, .declared⟩, ⟨"f", .float, true, .declared⟩]
    let ix : Index := ⟨"t", "i", columns, 4, false, some ⟨1, 2⟩⟩
    let point := Key.encode false (groupValue [.int (-5), .int 7])
    let key := Key.oriented true [1, 1] ++ point ++ Key.encode false (.float .nan)
    let other := Key.oriented true [1, 2] ++ point ++ 3 :: Bytes.bigEndian 8 1
    (∃ values, ix.decodeRow key = .ok values ∧ ix.encodeRow values = .ok key) ∧
      ∃ values again, ix.decodeRow other = .ok values ∧ ix.encodeRow values = .ok again ∧
        again ≠ other := by
  intro columns ix point key other
  let d : Draft := { table := "t", name := "i", columns, spatial := some ⟨1, 2⟩ }
  have hdraft : d.build = .ok ix := rfl
  obtain ⟨-, hkeys⟩ := decode_accepts_encodings
  have hpieces {b : Bytes} {ps : List (Value × Bytes)}
      (h : Key.pieces ix.descents b = .ok (ps, [])) :
      ((Key.pieces ix.descents b).toOption.getD ([], [])).1 = ps := by
    rw [h]
    rfl
  constructor
  · obtain ⟨-, hread⟩ := hkeys d ix hdraft key
    have hkey : ix.decodeRow key = .ok [.bool true, .int (-5), .int 7, .float .nan] := by
      decide +kernel
    obtain ⟨-, ps, again, hps, -, hagain, -, -, hsame⟩ := hread _ hkey (by decide)
    obtain rfl := hpieces hps
    obtain rfl := hsame.mpr (by decide +kernel)
    exact ⟨_, hkey, hagain⟩
  · obtain ⟨-, hread⟩ := hkeys d ix hdraft other
    have hother : ix.decodeRow other =
        .ok [.bool true, .int (-5), .int 7, .float ⟨0xFFFFFFFFFFFFFFFE⟩] := by
      decide +kernel
    obtain ⟨-, ps, again, hps, -, hagain, -, -, hsame⟩ := hread _ hother (by decide)
    obtain rfl := hpieces hps
    exact ⟨_, again, hother, hagain, fun heq => absurd (hsame.mp heq) (by decide +kernel)⟩

end Index
end OrderedQuery
