import OrderedQuery.Proofs.Index.RoundTrip
import OrderedQuery.Proofs.Plan.ScanRange

/-!
# Keys that begin with given values

The encoding of leading values begins the key of a row exactly if the row begins with these
values.  What is encoded is the stored columns, so that this rests on three facts: no encoding
begins another one, a coordinate group is determined by its ordinal, and leading values do not
end inside the group.
-/

namespace OrderedQuery
namespace Index

variable {ix : Index}

theorem checkTypes_take {columns : List Column} {values : List Value}
    (h : checkTypes columns values = .ok ()) (m : Nat) :
    checkTypes columns (values.take m) = .ok () := by
  induction columns generalizing values m with
  | nil => rfl
  | cons c columns ih =>
      cases values with
      | nil => rwa [List.take_nil]
      | cons v values =>
          cases m with
          | zero => rfl
          | succ m =>
              rw [checkTypes] at h
              rw [List.take_succ_cons, checkTypes]
              split at h
              · rename_i hconforms
                rw [if_pos hconforms]
                exact ih h m
              · cases h

/-- Leading values of a storable row are storable unless they end inside the group. -/
theorem Storable.take {values : List Value} (h : ix.Storable values) {m : Nat}
    (hm : ix.Whole m) (hle : m ≤ values.length) : ix.Storable (values.take m) := by
  have hlength : (values.take m).length = m := List.length_take_of_le hle
  refine ⟨hlength.symm ▸ hm, checkTypes_take h.types m, fun g hg hafter => ?_⟩
  rw [hlength] at hafter
  have hwithin : g.dimensions ≤ m - g.first := by
    rw [CoordinateGroup.after] at hafter
    omega
  rw [List.drop_take, List.take_take, Nat.min_eq_left hwithin]
  exact h.group g hg (hafter.trans hle)

/-- Storable values are determined by their stored columns. -/
theorem canonical_eq_of_collapse (hv : ix.Valid) {vs ws : List Value} (hvs : ix.Storable vs)
    (hws : ix.Storable ws) (hlength : vs.length = ws.length)
    (h : (ix.collapse vs).map Value.canonical = (ix.collapse ws).map Value.canonical) :
    vs.map Value.canonical = ws.map Value.canonical := by
  cases hg : ix.spatial with
  | none => rwa [collapse_of_none hg, collapse_of_none hg] at h
  | some g =>
      by_cases hshort : vs.length < g.after
      · rwa [collapse_of_lt hg hshort, collapse_of_lt hg (hlength ▸ hshort)] at h
      · have hlong : g.after ≤ vs.length := Nat.not_lt.mp hshort
        have hread := expandOrdinal_collapse hv hg hlong hvs
        rw [h, expandOrdinal_collapse hv hg (hlength ▸ hlong) hws] at hread
        exact (Except.ok.inj hread).symm

/-- A row agrees with the stored columns of leading values exactly if it begins with them. -/
theorem storedOrder_eq_eq_iff (hv : ix.Valid) {row values : List Value}
    (hlength : row.length = ix.columns.length) (hrow : ix.Storable row)
    (hvalues : ix.Storable values) :
    ix.storedOrder row values = .eq ↔
      List.Forall₂ (fun v w => v.totalCompare w = .eq) (row.take values.length) values := by
  have hle : values.length ≤ row.length := hlength ▸ hvalues.whole.1
  have htake : (row.take values.length).length = values.length := List.length_take_of_le hle
  have hcount : (ix.collapse (row.take values.length)).length ≤ ix.descents.length := by
    rw [← length_collapse hv hlength]
    exact (collapse_take hv hvalues.whole).length_le
  rw [storedOrder, Key.compareColumns_eq_eq_iff (length_collapse_congr htake) hcount,
    Value.forall₂_totalCompare_eq_iff]
  constructor
  · exact canonical_eq_of_collapse hv (hrow.take hvalues.whole hle) hvalues htake
  · intro h
    rw [← collapse_map_canonical, h, collapse_map_canonical]

/-- Values that conform and whose coordinates are in the space are refused only for their
number. -/
theorem exists_encodeLeading_error_iff (hv : ix.Valid) {values : List Value}
    (hconforms : ∀ p ∈ values.zip ix.columns, p.1.conforms p.2.type = true)
    (hgroup : ∀ g, ix.spatial = some g → g.after ≤ values.length →
      InSpace ((values.drop g.first).take g.dimensions)) :
    (∃ e, ix.encodeLeading values = .error e) ↔
      ix.columns.length < values.length ∨
        ∃ g, ix.spatial = some g ∧ g.first < values.length ∧ values.length < g.after := by
  have hstorable : ix.Storable values ↔ ix.Whole values.length := by
    refine ⟨fun h => h.whole, fun hwhole => ⟨hwhole, checkTypes_eq_ok_iff.mpr hconforms, ?_⟩⟩
    intro g hg hafter
    exact (inSpace_iff (length_group hv hg hafter)).mp (hgroup g hg hafter)
  have hfails : (∃ e, ix.encodeLeading values = .error e) ↔
      ¬ ∃ key, ix.encodeLeading values = .ok key := by
    cases ix.encodeLeading values with
    | error e => simp
    | ok key => simp
  rw [hfails, exists_encodeLeading_iff hv, hstorable, Whole, not_and_or, Nat.not_le]
  refine or_congr_right ?_
  push Not
  rfl

/-- The encoding of leading values begins the keys of exactly those rows whose first values equal
them, column by column and in whatever direction the columns are stored.  Values that conform to
the columns have an encoding unless there are too many of them, they end inside the coordinate
group, or their coordinates are no point. -/
theorem encodeLeading_isPrefix_iff {d : Draft} (hdraft : d.build = .ok ix) :
    (∀ row key values start, ix.encodeRow row = .ok key → ix.encodeLeading values = .ok start →
      (start <+: key ↔
        List.Forall₂ (fun v w => v.totalCompare w = .eq) (row.take values.length) values)) ∧
      ∀ values, (∀ p ∈ values.zip ix.columns, p.1.conforms p.2.type = true) →
        (∀ g, ix.spatial = some g → g.after ≤ values.length →
          InSpace ((values.drop g.first).take g.dimensions)) →
        ((∃ e, ix.encodeLeading values = .error e) ↔
          ix.columns.length < values.length ∨
            ∃ g, ix.spatial = some g ∧ g.first < values.length ∧ values.length < g.after) := by
  have hv := valid_of_build hdraft
  refine ⟨?_, fun values hconforms hgroup => exists_encodeLeading_error_iff hv hconforms hgroup⟩
  intro row key values start hkey hstart
  obtain ⟨hlength, hrow, -⟩ := encodeRow_eq_ok hv hkey
  obtain ⟨hvalues, -⟩ := encodeLeading_eq_ok hv hstart
  rw [bound_prefix_iff hv hkey hstart, storedOrder_eq_eq_iff hv hlength hrow hvalues]

/-- A byte string does not select the longer ones in a descending column, no point does not
select a point, and one NaN selects another. -/
theorem encodeLeading_isPrefix_iff_descending :
    let columns : List Column := [⟨"c", .bytes, false, .declared⟩, ⟨"x", .int, true, .declared⟩,
      ⟨"y", .int, true, .declared⟩, ⟨"f", .float, false, .declared⟩]
    let ix : Index := ⟨"t", "i", columns, 4, false, some ⟨1, 2⟩⟩
    let row : List Value := [.bytes [1, 0], .int (-5), .int 7, .float ⟨0xFFF0000000000001⟩]
    ∃ key, ix.encodeRow row = .ok key ∧
      (∃ start, ix.encodeLeading [.bytes [1, 0], .int (-5), .int 7, .float .nan] = .ok start ∧
        start <+: key) ∧
      (∃ start, ix.encodeLeading [.bytes [1]] = .ok start ∧ ¬ start <+: key) ∧
      (∃ start, ix.encodeLeading [.bytes [1, 0], .null, .null] = .ok start ∧ ¬ start <+: key) ∧
      ∃ e, ix.encodeLeading [.bytes [1, 0], .int (-5)] = .error e := by
  intro columns ix row
  let d : Draft := { table := "t", name := "i", columns, spatial := some ⟨1, 2⟩ }
  have hdraft : d.build = .ok ix := rfl
  obtain ⟨hselects, hrefused⟩ := encodeLeading_isPrefix_iff hdraft
  refine ⟨_, rfl, ⟨_, rfl, ?_⟩, ⟨_, rfl, ?_⟩, ⟨_, rfl, ?_⟩, ?_⟩
  · rw [hselects row _ [.bytes [1, 0], .int (-5), .int 7, .float .nan] _ rfl rfl]
    decide
  · rw [hselects row _ [.bytes [1]] _ rfl rfl]
    decide
  · rw [hselects row _ [.bytes [1, 0], .null, .null] _ rfl rfl]
    decide
  · refine (hrefused _ (by decide) ?_).mpr (.inr ⟨⟨1, 2⟩, rfl, by decide, by decide⟩)
    rintro _ ⟨⟩ hafter
    exact absurd hafter (by decide)

end Index
end OrderedQuery
