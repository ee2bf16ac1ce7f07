import OrderedQuery.Proofs.Index.Physical
import OrderedQuery.Proofs.Key.Canonical

/-!
# Keys of rows and of leading values

The key of a row begins with the key of its leading values, and both are ordered by their
stored columns.  Reading the key of a row gives the row back.
-/

namespace OrderedQuery

theorem Key.encodeAll_zip_append (vs ws : List Value) (directions : List Bool) :
    encodeAll ((vs ++ ws).zip directions) =
      encodeAll (vs.zip directions) ++ encodeAll (ws.zip (directions.drop vs.length)) := by
  induction vs generalizing directions with
  | nil => rfl
  | cons v vs ih =>
      cases directions with
      | nil => simp [encodeAll]
      | cons d directions =>
          rw [List.cons_append, List.zip_cons_cons, encodeAll_cons, ih, List.zip_cons_cons,
            encodeAll_cons, List.append_assoc]
          rfl

namespace Index

variable {ix : Index}

/-- What leading values must satisfy to have a stored form. -/
structure Storable (ix : Index) (values : List Value) : Prop where
  whole : ix.Whole values.length
  types : checkTypes ix.columns values = .ok ()
  group : ∀ g, ix.spatial = some g → g.after ≤ values.length →
    (values.drop g.first).take g.dimensions = [.null, .null] ∨
      ∃ a b z, (values.drop g.first).take g.dimensions = [.int a, .int b] ∧
        Space.latLon.shuffle [a, b] = .ok z

/-- The type check passes if every value may stand in its column. -/
theorem checkTypes_eq_ok_iff {columns : List Column} {values : List Value} :
    checkTypes columns values = .ok () ↔
      ∀ p ∈ values.zip columns, p.1.conforms p.2.type = true := by
  induction columns generalizing values with
  | nil => cases values <;> simp [checkTypes]
  | cons c columns ih =>
      cases values with
      | nil => simp [checkTypes]
      | cons v values =>
          rw [checkTypes, List.zip_cons_cons, List.forall_mem_cons]
          split
          · rename_i hconforms
            rw [ih]
            exact (and_iff_right hconforms).symm
          · rename_i hnot
            exact ⟨fun h => (nomatch h), fun h => absurd h.1 hnot⟩

theorem after_eq (hv : ix.Valid) {g : CoordinateGroup} (hg : ix.spatial = some g) :
    g.after = g.first + 2 := by
  rw [CoordinateGroup.after, hv.dimensions g hg]

theorem length_group (hv : ix.Valid) {g : CoordinateGroup} (hg : ix.spatial = some g)
    {values : List Value} (hafter : g.after ≤ values.length) :
    ((values.drop g.first).take g.dimensions).length = 2 := by
  rw [after_eq hv hg] at hafter
  rw [hv.dimensions g hg, List.length_take, List.length_drop]
  omega

theorem length_take_columns (hv : ix.Valid) {g : CoordinateGroup}
    (hg : ix.spatial = some g) :
    (ix.columns.take g.first).length = g.first := by
  have hafter := after_eq hv hg
  have hwithin := hv.within g hg
  rw [List.length_take]
  omega

/-- The columns of the coordinates are two ascending columns of integers. -/
theorem exists_columns_eq (hv : ix.Valid) {g : CoordinateGroup}
    (hg : ix.spatial = some g) :
    ∃ cx cy, cx.type = .int ∧ cx.ascending = true ∧ cy.type = .int ∧
      ix.columns = ix.columns.take g.first ++ cx :: cy :: ix.columns.drop g.after := by
  have hafter := after_eq hv hg
  have hwithin := hv.within g hg
  have hlength : ((ix.columns.drop g.first).take g.dimensions).length = 2 := by
    rw [hv.dimensions g hg, List.length_take, List.length_drop]
    omega
  obtain ⟨cx, cy, hgroup⟩ := List.length_eq_two.mp hlength
  have hascending := hv.ascending g hg
  rw [hgroup] at hascending
  obtain ⟨htypeX, hascendingX⟩ := hascending cx (by simp)
  refine ⟨cx, cy, htypeX, hascendingX, (hascending cy (by simp)).1, ?_⟩
  have hrest : cx :: cy :: ix.columns.drop g.after = ix.columns.drop g.first := by
    rw [CoordinateGroup.after, ← List.drop_drop]
    exact (congrArg (· ++ _) hgroup.symm).trans (List.take_append_drop _ _)
  rw [hrest, List.take_append_drop]

theorem zip_append_of_length_le {α β : Type} {xs : List α} {ys zs : List β}
    (h : xs.length ≤ ys.length) : xs.zip (ys ++ zs) = xs.zip ys := by
  induction xs generalizing ys with
  | nil => rfl
  | cons x xs ih =>
      cases ys with
      | nil => simp at h
      | cons y ys =>
          rw [List.cons_append, List.zip_cons_cons, List.zip_cons_cons,
            ih (by simpa using h)]

theorem collapse_of_lt {g : CoordinateGroup} (hg : ix.spatial = some g)
    {values : List Value} (h : values.length < g.after) : ix.collapse values = values := by
  rw [collapse, hg]
  exact if_pos h

theorem collapse_of_le {g : CoordinateGroup} (hg : ix.spatial = some g)
    {values : List Value} (h : g.after ≤ values.length) :
    ix.collapse values = values.take g.first ++
      groupValue ((values.drop g.first).take g.dimensions) :: values.drop g.after := by
  rw [collapse, hg]
  exact if_neg (Nat.not_lt.mpr h)

theorem collapse_of_none (hg : ix.spatial = none) (values : List Value) :
    ix.collapse values = values := by
  rw [collapse, hg]

/-! A row may be given by the columns in front of the coordinates, the coordinates and the columns
behind them. -/

section Parts

variable {g : CoordinateGroup} {before group behind : List Value}

theorem group_append (hv : ix.Valid) (hg : ix.spatial = some g) (hbefore : before.length = g.first)
    (hgroup : group.length = 2) :
    ((before ++ group ++ behind).drop g.first).take g.dimensions = group := by
  rw [List.append_assoc, List.drop_left' hbefore, hv.dimensions g hg, List.take_left' hgroup]

theorem collapse_append (hv : ix.Valid) (hg : ix.spatial = some g)
    (hbefore : before.length = g.first) (hgroup : group.length = 2) :
    ix.collapse (before ++ group ++ behind) = before ++ groupValue group :: behind := by
  have hfront : (before ++ group).length = g.after := by
    rw [List.length_append, hbefore, hgroup, after_eq hv hg]
  have hlong : g.after ≤ (before ++ group ++ behind).length := by
    rw [List.length_append, hfront]
    exact Nat.le_add_right _ _
  rw [collapse_of_le hg hlong, group_append hv hg hbefore hgroup, List.drop_left' hfront,
    List.append_assoc, List.take_left' hbefore]

end Parts

/-- The encoding of a spatial group between its neighbours. -/
theorem encodeColumns_group (hv : ix.Valid) {g : CoordinateGroup}
    (hg : ix.spatial = some g) {values : List Value} (hafter : g.after ≤ values.length) :
    encodeColumns (ix.columns.take g.first) (values.take g.first) ++
        Key.encode false (groupValue ((values.drop g.first).take g.dimensions)) ++
        encodeColumns (ix.columns.drop g.after) (values.drop g.after) =
      Key.encodeAll ((ix.collapse values).zip ix.descents) := by
  have hfirst : g.after = g.first + 2 := after_eq hv hg
  have hwithin := hv.within g hg
  have hlength : (values.take g.first).length =
      ((ix.columns.take g.first).map fun c => !c.ascending).length := by
    rw [List.length_map, List.length_take, List.length_take]
    omega
  rw [collapse_of_le hg hafter, descents_of_spatial_eq_some hg, List.zip_append hlength,
    List.zip_cons_cons, Key.encodeAll_append, Key.encodeAll_cons, encodeColumns_eq,
    encodeColumns_eq, List.append_assoc]

/-- The encoding of values that end in front of a spatial group. -/
theorem encodeColumns_before (hv : ix.Valid) {g : CoordinateGroup} (hg : ix.spatial = some g)
    {values : List Value} (hfirst : values.length ≤ g.first) :
    encodeColumns (ix.columns.take g.first) (values.take g.first) =
      Key.encodeAll ((ix.collapse values).zip ix.descents) := by
  have hafter := after_eq hv hg
  have hcolumns : values.length ≤
      ((ix.columns.take g.first).map fun c => !c.ascending).length := by
    rw [List.length_map, length_take_columns hv hg]
    exact hfirst
  rw [encodeColumns_eq, descents_of_spatial_eq_some hg, collapse_of_lt hg (by omega),
    List.take_of_length_le hfirst, zip_append_of_length_le hcolumns]

theorem storable_of_spatial {g : CoordinateGroup} (hg : ix.spatial = some g)
    {values : List Value} (htypes : checkTypes ix.columns values = .ok ())
    (hlength : values.length ≤ ix.columns.length)
    (hwhole : values.length ≤ g.first ∨ g.after ≤ values.length)
    (hgroup : g.after ≤ values.length →
      (values.drop g.first).take g.dimensions = [.null, .null] ∨
        ∃ a b z, (values.drop g.first).take g.dimensions = [.int a, .int b] ∧
          Space.latLon.shuffle [a, b] = .ok z) :
    ix.Storable values := by
  have hsame (g' : CoordinateGroup) (hg' : ix.spatial = some g') : g = g' :=
    Option.some.inj (hg.symm.trans hg')
  refine ⟨⟨hlength, ?_⟩, htypes, ?_⟩
  · intro g' hg'
    obtain rfl := hsame g' hg'
    exact hwhole
  · intro g' hg'
    obtain rfl := hsame g' hg'
    exact hgroup

/-- Leading values that are encoded are storable, and their encoding is that of their
stored columns. -/
theorem encodeChecked_eq_ok (hv : ix.Valid) {values : List Value} {key : Bytes}
    (htypes : checkTypes ix.columns values = .ok ())
    (hlength : values.length ≤ ix.columns.length) (h : ix.encodeChecked values = .ok key) :
    ix.Storable values ∧ key = Key.encodeAll ((ix.collapse values).zip ix.descents) := by
  rw [encodeChecked] at h
  cases hspatial : ix.spatial with
  | none =>
      have hno (g : CoordinateGroup) : ix.spatial ≠ some g := by simp [hspatial]
      rw [hspatial] at h
      obtain rfl := Except.ok.inj h
      refine ⟨⟨⟨hlength, fun g hg => absurd hg (hno g)⟩, htypes,
        fun g hg => absurd hg (hno g)⟩, ?_⟩
      rw [encodeColumns_eq, descents_of_spatial_eq_none hspatial, collapse_of_none hspatial]
  | some g =>
      have hafter := after_eq hv hspatial
      simp only [hspatial] at h
      split at h
      · cases h
      · rename_i hwhole
        split at h
        · rename_i hshort
          obtain rfl := Except.ok.inj h
          have hfirst : values.length ≤ g.first := by omega
          exact ⟨storable_of_spatial hspatial htypes hlength (.inl hfirst) (by omega),
            encodeColumns_before hv hspatial hfirst⟩
        · rename_i hlong
          have hle : g.after ≤ values.length := Nat.not_lt.mp hlong
          cases hordinal : ix.ordinal ((values.drop g.first).take g.dimensions) with
          | error e => rw [hordinal] at h; cases h
          | ok v =>
              rw [hordinal] at h
              obtain ⟨rfl, hcases⟩ := ordinal_eq_ok hordinal (length_group hv hspatial hle)
              obtain rfl := Except.ok.inj h
              refine ⟨storable_of_spatial hspatial htypes hlength (.inr hle) fun _ => ?_,
                encodeColumns_group hv hspatial hle⟩
              rcases hcases with ⟨-, hnull⟩ | ⟨a, b, z, -, hpoint, hz⟩
              · exact .inl hnull
              · exact .inr ⟨a, b, z, hpoint, hz⟩

theorem encodeLeading_eq_ok (hv : ix.Valid) {values : List Value} {key : Bytes}
    (h : ix.encodeLeading values = .ok key) :
    ix.Storable values ∧ key = Key.encodeAll ((ix.collapse values).zip ix.descents) := by
  rw [encodeLeading] at h
  split at h
  · cases h
  · rename_i hlength
    cases htypes : checkTypes ix.columns values with
    | error e => rw [htypes] at h; cases h
    | ok u =>
        rw [htypes] at h
        exact encodeChecked_eq_ok hv htypes (Nat.not_lt.mp hlength) h

theorem encodeRow_eq_ok (hv : ix.Valid) {row : List Value} {key : Bytes}
    (h : ix.encodeRow row = .ok key) :
    row.length = ix.columns.length ∧ ix.Storable row ∧
      key = Key.encodeAll ((ix.collapse row).zip ix.descents) := by
  rw [encodeRow] at h
  split at h
  · cases h
  · rename_i hlength
    exact ⟨Decidable.not_not.mp hlength, encodeLeading_eq_ok hv h⟩

/-! ## The number of stored columns -/

theorem length_collapse_congr {vs ws : List Value} (h : vs.length = ws.length) :
    (ix.collapse vs).length = (ix.collapse ws).length := by
  cases hg : ix.spatial with
  | none => rw [collapse_of_none hg, collapse_of_none hg, h]
  | some g =>
      by_cases hshort : vs.length < g.after
      · rw [collapse_of_lt hg hshort, collapse_of_lt hg (h ▸ hshort), h]
      · rw [collapse_of_le hg (Nat.not_lt.mp hshort),
          collapse_of_le hg (h ▸ Nat.not_lt.mp hshort)]
        simp [h]

/-- A whole row has as many stored columns as the definition. -/
theorem length_collapse (hv : ix.Valid) {values : List Value}
    (h : values.length = ix.columns.length) :
    (ix.collapse values).length = ix.descents.length := by
  cases hg : ix.spatial with
  | none => rw [collapse_of_none hg, descents_of_spatial_eq_none hg, List.length_map, h]
  | some g =>
      have hwithin := hv.within g hg
      rw [collapse_of_le hg (h ▸ hwithin), descents_of_spatial_eq_some hg]
      simp [h]

/-- The stored columns of leading values begin those of the row. -/
theorem collapse_take (hv : ix.Valid) {row : List Value} {m : Nat}
    (hm : ix.Whole m) : ix.collapse (row.take m) <+: ix.collapse row := by
  cases hg : ix.spatial with
  | none =>
      rw [collapse_of_none hg, collapse_of_none hg]
      exact List.take_prefix m row
  | some g =>
      have hafter := after_eq hv hg
      by_cases hshort : row.length < g.after
      · rw [collapse_of_lt hg hshort, collapse_of_lt hg (by rw [List.length_take]; omega)]
        exact List.take_prefix m row
      · have hlong : g.after ≤ row.length := Nat.not_lt.mp hshort
        rw [collapse_of_le hg hlong]
        rcases hm.2 g hg with hle | hle
        · rw [collapse_of_lt hg (by rw [List.length_take]; omega)]
          have htake : row.take m <+: row.take g.first := by
            rw [← Nat.min_eq_left hle, ← List.take_take]
            exact List.take_prefix _ _
          exact htake.trans (List.prefix_append _ _)
        · rw [collapse_of_le hg (by rw [List.length_take]; omega), List.take_take,
            Nat.min_eq_left (by omega), List.drop_take, List.drop_take, List.take_take,
            Nat.min_eq_left (by rw [hv.dimensions g hg]; omega)]
          exact (List.prefix_append_right_inj _).mpr
            (List.cons_prefix_cons.mpr ⟨rfl, List.take_prefix _ _⟩)

/-! ## Order -/

/-- Order of two rows by their stored columns, each in the direction it is stored in. -/
def compareRows (ix : Index) (a b : List Value) : Ordering :=
  Key.compareColumns ix.descents (ix.collapse a) (ix.collapse b)

/-- Keys are ordered like the stored columns of their rows. -/
theorem compare_keys (hv : ix.Valid) {a b : List Value} {j k : Bytes}
    (ha : ix.encodeRow a = .ok j) (hb : ix.encodeRow b = .ok k) :
    compare j k = ix.compareRows a b := by
  obtain ⟨hla, -, rfl⟩ := encodeRow_eq_ok hv ha
  obtain ⟨hlb, -, rfl⟩ := encodeRow_eq_ok hv hb
  exact Bytes.compare_of_settled? (Key.settled?_encodeAll
    (length_collapse_congr (hla.trans hlb.symm)) (length_collapse hv hla).le)

/-- All of the first columns have the same direction. -/
def Uniform (ix : Index) (descending : Bool) (m : Nat) : Prop :=
  ∀ c ∈ ix.columns.take m, c.ascending = !descending

/-- The coordinates are stored in ascending order. -/
theorem exists_ascending_coordinate (hv : ix.Valid) {g : CoordinateGroup}
    (hg : ix.spatial = some g) {m : Nat} (hm : g.after ≤ m) :
    ∃ c ∈ ix.columns.take m, c.ascending = true := by
  obtain ⟨c, _, _, hascending, -, hcolumns⟩ := exists_columns_eq hv hg
  have hafter := after_eq hv hg
  refine ⟨c, ?_, hascending⟩
  rw [hcolumns, List.take_append, length_take_columns hv hg, List.mem_append]
  have hsome : m - g.first = (m - g.first - 1) + 1 := by omega
  rw [hsome, List.take_succ_cons]
  exact .inr List.mem_cons_self

/-- Every stored column of leading values has the direction of one of their columns. -/
theorem exists_column_of_mem_descents (hv : ix.Valid) {values : List Value}
    (hm : ix.Whole values.length) {d : Bool}
    (hd : d ∈ ix.descents.take (ix.collapse values).length) :
    ∃ c ∈ ix.columns.take values.length, (!c.ascending) = d := by
  cases hg : ix.spatial with
  | none =>
      rw [descents_of_spatial_eq_none hg, collapse_of_none hg, ← List.map_take] at hd
      exact List.mem_map.mp hd
  | some g =>
      have hafter := after_eq hv hg
      have hcolumns : ((ix.columns.take g.first).map fun c => !c.ascending).length =
          g.first := by
        rw [List.length_map, length_take_columns hv hg]
      rw [descents_of_spatial_eq_some hg] at hd
      rcases hm.2 g hg with hle | hlong
      · rw [collapse_of_lt hg (by omega), List.take_append_of_le_length (by omega),
          ← List.map_take, List.take_take, Nat.min_eq_left hle] at hd
        exact List.mem_map.mp hd
      · have hlength : (ix.collapse values).length =
            g.first + 1 + (values.length - g.after) := by
          rw [collapse_of_le hg hlong, List.length_append, List.length_cons,
            List.length_take, List.length_drop]
          omega
        rw [hlength, Nat.add_assoc, List.take_append, hcolumns,
          List.take_of_length_le (by omega), Nat.add_sub_cancel_left, Nat.add_comm 1,
          List.take_succ_cons, List.mem_append, List.mem_cons] at hd
        rcases hd with hd | rfl | hd
        · obtain ⟨c, hc, rfl⟩ := List.mem_map.mp hd
          exact ⟨c, List.IsPrefix.mem hc (List.take_prefix_take_left (by omega)), rfl⟩
        · -- an ordinal ascends, and so do the coordinates it stands for
          obtain ⟨c, hc, hascending⟩ := exists_ascending_coordinate hv hg hlong
          exact ⟨c, hc, by rw [hascending]; rfl⟩
        · rw [← List.map_take] at hd
          obtain ⟨c, hc, rfl⟩ := List.mem_map.mp hd
          rw [← List.drop_take] at hc
          exact ⟨c, List.mem_of_mem_drop hc, rfl⟩

theorem descents_of_uniform (hv : ix.Valid) {descending : Bool} (values : List Value)
    (hm : ix.Whole values.length) (hu : ix.Uniform descending values.length) :
    ∀ d ∈ ix.descents.take (ix.collapse values).length, d = descending := by
  intro d hd
  obtain ⟨c, hc, rfl⟩ := exists_column_of_mem_descents hv hm hd
  rw [hu c hc, Bool.not_not]

/-! ## Rows read back -/

theorem groupValue_canonical (group : List Value) :
    (groupValue group).canonical = groupValue group := by
  unfold groupValue
  split
  · split
    · rfl
    · rfl
  · rfl

theorem groupValue_map_canonical (group : List Value) :
    groupValue (group.map Value.canonical) = groupValue group := by
  match group with
  | [] => rfl
  | [v] => cases v <;> rfl
  | [v, w] => cases v <;> cases w <;> rfl
  | v :: w :: x :: rest => cases v <;> cases w <;> rfl

theorem collapse_map_canonical (values : List Value) :
    ix.collapse (values.map Value.canonical) = (ix.collapse values).map Value.canonical := by
  cases hg : ix.spatial with
  | none => rw [collapse_of_none hg, collapse_of_none hg]
  | some g =>
      by_cases hshort : values.length < g.after
      · rw [collapse_of_lt hg hshort, collapse_of_lt hg (by rwa [List.length_map])]
      · have hlong := Nat.not_lt.mp hshort
        rw [collapse_of_le hg hlong, collapse_of_le hg (by rwa [List.length_map]),
          List.map_append, List.map_cons, groupValue_canonical, ← List.map_take,
          ← List.map_drop, ← List.map_drop, ← List.map_take, groupValue_map_canonical]

section Stored

variable {g : CoordinateGroup} {before behind : List Value}

theorem expandOrdinal_null (hbefore : before.length = g.first) :
    ix.expandOrdinal g (before ++ .null :: behind) =
      .ok (before ++ List.replicate g.dimensions .null ++ behind) := by
  rw [expandOrdinal, ← hbefore]
  simp

theorem expandOrdinal_int (hv : ix.Valid) (hg : ix.spatial = some g)
    (hbefore : before.length = g.first) (z : Int64) :
    ix.expandOrdinal g (before ++ .int z :: behind) =
      .ok (before ++ (Space.latLon.unshuffle z).map .int ++ behind) := by
  have hspace : Space.ofDimensions g.dimensions = .ok Space.latLon := by
    rw [hv.dimensions g hg]
    rfl
  rw [expandOrdinal, ← hbefore, hspace]
  simp [Except.mapError, bind, Except.bind]

end Stored

/-- A row consists of what stands in front of the coordinates, the coordinates and the rest. -/
theorem take_append_group_append_drop (g : CoordinateGroup) (row : List Value) :
    row.take g.first ++ (row.drop g.first).take g.dimensions ++ row.drop g.after = row := by
  have hdrop : row.drop g.after = (row.drop g.first).drop g.dimensions := by
    rw [List.drop_drop, CoordinateGroup.after]
  rw [hdrop, List.append_assoc, List.take_append_drop, List.take_append_drop]

theorem expandOrdinal_collapse (hv : ix.Valid) {g : CoordinateGroup}
    (hg : ix.spatial = some g) {row : List Value}
    (hlong : g.after ≤ row.length) (hrow : ix.Storable row) :
    ix.expandOrdinal g ((ix.collapse row).map Value.canonical) =
      .ok (row.map Value.canonical) := by
  have hafter := after_eq hv hg
  have hbefore : ((row.take g.first).map Value.canonical).length = g.first := by
    rw [List.length_map, List.length_take]
    omega
  have hparts := congrArg (List.map Value.canonical) (take_append_group_append_drop g row)
  rw [List.map_append, List.map_append] at hparts
  rw [collapse_of_le hg hlong, List.map_append, List.map_cons, groupValue_canonical, ← hparts]
  rcases hrow.group g hg hlong with hnull | ⟨a, b, z, hpoint, hz⟩
  · have hvalue : groupValue [.null, .null] = .null := rfl
    rw [hnull, hvalue, expandOrdinal_null hbefore, hv.dimensions g hg]
    rfl
  · have hvalue : groupValue [.int a, .int b] = .int z := by rw [groupValue, hz]
    rw [hpoint, hvalue, expandOrdinal_int hv hg hbefore, Space.unshuffle_shuffle hz]
    rfl

/-- A row is read back from its key, up to the NaN that stands for all. -/
theorem decodeRow_encodeRow (hv : ix.Valid) {row : List Value} {key : Bytes}
    (h : ix.encodeRow row = .ok key) :
    ix.decodeRow key = .ok (row.map Value.canonical) := by
  obtain ⟨hlength, hrow, rfl⟩ := encodeRow_eq_ok hv h
  have hdecode := Key.decodeAll_encodeAll (length_collapse hv hlength) []
  rw [List.append_nil] at hdecode
  rw [decodeRow]
  have hdescents : ix.physicalDirections.map (!·) = ix.descents := rfl
  rw [hdescents, hdecode]
  cases hg : ix.spatial with
  | none =>
      show Except.ok ((ix.collapse row).map Value.canonical) = _
      rw [collapse_of_none hg]
  | some g => exact expandOrdinal_collapse hv hg (hlength ▸ hv.within g hg) hrow

/-- Rows are ordered like the rows that are read back in their place. -/
theorem compareRows_map_canonical (a b : List Value) :
    ix.compareRows (a.map Value.canonical) (b.map Value.canonical) = ix.compareRows a b := by
  rw [compareRows, collapse_map_canonical, collapse_map_canonical,
    Key.compareColumns_map_canonical, compareRows]

theorem compareRows_self (a : List Value) : ix.compareRows a a = .eq :=
  Key.compareColumns_self _ _

end Index
end OrderedQuery
