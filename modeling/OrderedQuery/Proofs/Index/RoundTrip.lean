import OrderedQuery.Proofs.Index.Keys

/-!
# Rows and their keys

A row has a key exactly if it has one value for every column, every value may stand in its
column, and the coordinates of a spatial index are null throughout or a point of the space.
The row is read back from its key.
-/

namespace OrderedQuery
namespace Index

variable {ix : Index}

/-- All coordinates are null, or all of them are integers of 32 bits. -/
def InSpace (group : List Value) : Prop :=
  (∀ v ∈ group, v = .null) ∨
    ∀ v ∈ group, ∃ i : Int64, v = .int i ∧ -2 ^ 31 ≤ i.toInt ∧ i.toInt < 2 ^ 31

/-- In the plane such a group is a pair of nulls or a point that has an ordinal. -/
theorem inSpace_iff {group : List Value} (hlength : group.length = 2) :
    InSpace group ↔
      group = [.null, .null] ∨
        ∃ a b z, group = [.int a, .int b] ∧ Space.latLon.shuffle [a, b] = .ok z := by
  obtain ⟨v, w, rfl⟩ := List.length_eq_two.mp hlength
  constructor
  · rintro (hnull | hpoint)
    · obtain rfl : v = .null := hnull v (by simp)
      obtain rfl : w = .null := hnull w (by simp)
      exact .inl rfl
    · obtain ⟨a, rfl, ha⟩ := hpoint v (by simp)
      obtain ⟨b, rfl, hb⟩ := hpoint w (by simp)
      obtain ⟨z, hz⟩ := Space.exists_shuffle_eq_ok_iff.mpr ⟨ha, hb⟩
      exact .inr ⟨a, b, z, rfl, hz⟩
  · rintro (hnull | ⟨a, b, z, hpoint, hz⟩)
    · left
      rw [hnull]
      simp
    · obtain ⟨ha, hb⟩ := Space.exists_shuffle_eq_ok_iff.mp ⟨z, hz⟩
      right
      rw [hpoint]
      intro u hu
      rcases List.mem_pair.mp hu with rfl | rfl
      · exact ⟨a, rfl, ha⟩
      · exact ⟨b, rfl, hb⟩

/-! ## Which values have a stored form -/

theorem ordinal_of_null (ix : Index) : ix.ordinal [.null, .null] = .ok .null :=
  rfl

theorem ordinal_of_shuffle (ix : Index) {a b z : Int64}
    (h : Space.latLon.shuffle [a, b] = .ok z) : ix.ordinal [.int a, .int b] = .ok (.int z) := by
  have hpoint : ix.coordinates [.int a, .int b] = .ok [a, b] := rfl
  have hspace : Space.ofDimensions [Value.int a, .int b].length = .ok Space.latLon := rfl
  rw [ordinal, hpoint, hspace]
  simp only [bind, Except.bind, Except.mapError, h]
  rfl

/-- Storable values are encoded. -/
theorem exists_encodeChecked (hv : ix.Valid) {values : List Value} (h : ix.Storable values) :
    ∃ key, ix.encodeChecked values = .ok key := by
  cases hg : ix.spatial with
  | none =>
      refine ⟨encodeColumns ix.columns values, ?_⟩
      rw [encodeChecked]
      simp only [hg]
  | some g =>
      have hafter := after_eq hv hg
      have hwhole := h.whole.2 g hg
      rw [encodeChecked]
      simp only [hg]
      rw [if_neg (by omega)]
      by_cases hshort : values.length < g.after
      · rw [if_pos hshort]
        exact ⟨_, rfl⟩
      · obtain ⟨v, hordinal⟩ : ∃ v,
            ix.ordinal ((values.drop g.first).take g.dimensions) = .ok v := by
          rcases h.group g hg (Nat.not_lt.mp hshort) with hnull | ⟨a, b, z, hpoint, hz⟩
          · exact ⟨.null, by rw [hnull, ordinal_of_null]⟩
          · exact ⟨.int z, by rw [hpoint, ix.ordinal_of_shuffle hz]⟩
        rw [if_neg hshort, hordinal]
        exact ⟨_, rfl⟩

/-- Leading values are encoded exactly if they are storable. -/
theorem exists_encodeLeading_iff (hv : ix.Valid) {values : List Value} :
    (∃ key, ix.encodeLeading values = .ok key) ↔ ix.Storable values := by
  constructor
  · rintro ⟨key, h⟩
    exact (encodeLeading_eq_ok hv h).1
  · intro h
    obtain ⟨key, hkey⟩ := exists_encodeChecked hv h
    refine ⟨key, ?_⟩
    rw [encodeLeading, if_neg (Nat.not_lt.mpr h.whole.1), h.types]
    exact hkey

/-- A row has a key exactly if it is whole and storable. -/
theorem exists_encodeRow_iff (hv : ix.Valid) {row : List Value} :
    (∃ key, ix.encodeRow row = .ok key) ↔
      row.length = ix.columns.length ∧ ix.Storable row := by
  constructor
  · rintro ⟨key, h⟩
    obtain ⟨hlength, hstorable, -⟩ := encodeRow_eq_ok hv h
    exact ⟨hlength, hstorable⟩
  · rintro ⟨hlength, hstorable⟩
    obtain ⟨key, hkey⟩ := (exists_encodeLeading_iff hv).mpr hstorable
    exact ⟨key, by rw [encodeRow, if_neg (not_not.mpr hlength), hkey]⟩

/-- What a storable row looks like, column by column. -/
theorem storable_iff (hv : ix.Valid) {row : List Value}
    (hlength : row.length = ix.columns.length) :
    ix.Storable row ↔
      (∀ p ∈ row.zip ix.columns, p.1.conforms p.2.type = true) ∧
        ∀ g, ix.spatial = some g → InSpace ((row.drop g.first).take g.dimensions) := by
  have hlong (g : CoordinateGroup) (hg : ix.spatial = some g) : g.after ≤ row.length :=
    hlength ▸ hv.within g hg
  constructor
  · intro h
    refine ⟨checkTypes_eq_ok_iff.mp h.types, fun g hg => ?_⟩
    exact (inSpace_iff (length_group hv hg (hlong g hg))).mpr (h.group g hg (hlong g hg))
  · rintro ⟨htypes, hgroup⟩
    refine ⟨⟨hlength.le, fun g hg => .inr (hlong g hg)⟩, checkTypes_eq_ok_iff.mpr htypes, ?_⟩
    intro g hg _
    exact (inSpace_iff (length_group hv hg (hlong g hg))).mp (hgroup g hg)

/-- A row of an accepted definition has a key exactly if it has one value for every column, of
the type of the column or null, and if the coordinates of a spatial index are null throughout or
integers of 32 bits.  Reading the key gives the row back, coordinates in their place, up to the
NaN that stands for all. -/
theorem encodeRow_round_trips {d : Draft} {ix : Index} (hdraft : d.build = .ok ix)
    (row : List Value) :
    ((∃ key, ix.encodeRow row = .ok key) ↔
        row.length = ix.columns.length ∧
          (∀ p ∈ row.zip ix.columns, p.1.conforms p.2.type = true) ∧
          ∀ g, ix.spatial = some g → InSpace ((row.drop g.first).take g.dimensions)) ∧
      ∀ key, ix.encodeRow row = .ok key → ix.decodeRow key = .ok (row.map Value.canonical) := by
  have hv := valid_of_build hdraft
  refine ⟨?_, fun key hkey => decodeRow_encodeRow hv hkey⟩
  rw [exists_encodeRow_iff hv]
  constructor
  · rintro ⟨hlength, hstorable⟩
    exact ⟨hlength, (storable_iff hv hlength).mp hstorable⟩
  · rintro ⟨hlength, hrow⟩
    exact ⟨hlength, (storable_iff hv hlength).mpr hrow⟩

/-- Coordinates between descending columns: a point, no point, and half a point. -/
theorem encodeRow_round_trips_between_descending :
    let columns : List Column := [⟨"c", .bytes, false, .declared⟩, ⟨"x", .int, true, .declared⟩,
      ⟨"y", .int, true, .declared⟩, ⟨"f", .float, false, .declared⟩]
    let d : Draft := { table := "t", name := "i", columns, spatial := some ⟨1, 2⟩ }
    let ix : Index := ⟨"t", "i", columns, 4, false, some ⟨1, 2⟩⟩
    d.build = .ok ix ∧
      (∃ key, ix.encodeRow [.bytes [0], .int (-5), .int 7, .float ⟨0xFFF0000000000001⟩] = .ok key ∧
        ix.decodeRow key = .ok [.bytes [0], .int (-5), .int 7, .float .nan]) ∧
      (∃ key, ix.encodeRow [.null, .null, .null, .null] = .ok key ∧
        ix.decodeRow key = .ok [.null, .null, .null, .null]) ∧
      ¬ ∃ key, ix.encodeRow [.null, .int 1, .null, .null] = .ok key := by
  intro columns d ix
  have hdraft : d.build = .ok ix := rfl
  refine ⟨hdraft, ?_, ?_, ?_⟩
  · obtain ⟨hiff, hread⟩ := encodeRow_round_trips hdraft
      [.bytes [0], .int (-5), .int 7, .float ⟨0xFFF0000000000001⟩]
    obtain ⟨key, hkey⟩ := hiff.mpr ⟨rfl, by decide, by
      rintro _ ⟨⟩
      right
      intro v hv
      rcases List.mem_pair.mp hv with rfl | rfl
      · exact ⟨-5, rfl, by decide⟩
      · exact ⟨7, rfl, by decide⟩⟩
    exact ⟨key, hkey, hread key hkey⟩
  · obtain ⟨hiff, hread⟩ := encodeRow_round_trips hdraft [.null, .null, .null, .null]
    obtain ⟨key, hkey⟩ := hiff.mpr ⟨rfl, by decide, by rintro _ ⟨⟩; left; decide⟩
    exact ⟨key, hkey, hread key hkey⟩
  · obtain ⟨hiff, -⟩ := encodeRow_round_trips hdraft [.null, .int 1, .null, .null]
    rw [hiff]
    rintro ⟨-, -, hgroup⟩
    rcases hgroup ⟨1, 2⟩ rfl with hnull | hpoint
    · exact absurd (hnull (.int 1) (by decide)) (by decide)
    · obtain ⟨i, hi, -⟩ := hpoint .null (by decide)
      cases hi

end Index
end OrderedQuery
