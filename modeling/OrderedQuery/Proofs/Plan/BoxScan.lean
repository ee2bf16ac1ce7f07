import OrderedQuery.Proofs.Index.RoundTrip
import OrderedQuery.Proofs.Plan.Tiling

/-!
# Scans of boxes

The ordinals of the points of a box lie between those of its two extreme corners.  A scan from one
corner to the other, both included, therefore returns every row whose point lies in the box,
and possibly others.
-/

namespace OrderedQuery

open Space (Box)

/-- Values that begin alike are ordered by what follows. -/
theorem Value.compareLex_append {vs ws : List Value}
    (h : List.Forall₂ (fun v w => v.totalCompare w = .eq) vs ws) (xs ys : List Value) :
    (vs ++ xs).compareLex totalCompare (ws ++ ys) = xs.compareLex totalCompare ys := by
  induction h with
  | nil => rfl
  | cons hv _ ih => rw [List.cons_append, List.cons_append, List.compareLex_cons_cons, hv,
      Ordering.eq_then, ih]

namespace Index

variable {ix : Index} {g : CoordinateGroup} {lead row : List Value} {a b x y z low : Int64}

/-- The row begins with the given values, and its point lies in a box. -/
structure InBox (g : CoordinateGroup) (lead : List Value) (box : Box) (row : List Value) :
    Prop where
  leads : List.Forall₂ (fun v w => v.totalCompare w = .eq) (row.take g.first) lead
  point : ∃ x y, (row.drop g.first).take g.dimensions = [.int x, .int y] ∧ box.Contains x y

theorem length_point (hv : ix.Valid) (hg : ix.spatial = some g) (hlead : lead.length = g.first) :
    (lead ++ [Value.int a, .int b]).length = g.after := by
  rw [List.length_append, hlead, after_eq hv hg]
  rfl

theorem collapse_point (hv : ix.Valid) (hg : ix.spatial = some g) (hlead : lead.length = g.first)
    (hz : Space.latLon.shuffle [a, b] = .ok z) :
    ix.collapse (lead ++ [.int a, .int b]) = lead ++ [.int z] := by
  have hgroup : groupValue [.int a, .int b] = .int z := by rw [groupValue, hz]
  rw [← List.append_nil (lead ++ _), collapse_append hv hg hlead rfl, hgroup]

/-- A point behind leading values has a stored form. -/
theorem storable_point (hv : ix.Valid) (hg : ix.spatial = some g) (hlead : lead.length = g.first)
    (hconforms : ∀ p ∈ lead.zip ix.columns, p.1.conforms p.2.type = true)
    (hz : Space.latLon.shuffle [a, b] = .ok z) : ix.Storable (lead ++ [.int a, .int b]) := by
  have hlength := length_point (a := a) (b := b) hv hg hlead
  refine ⟨⟨hlength ▸ hv.within g hg, fun g' hg' => ?_⟩, checkTypes_eq_ok_iff.mpr ?_,
    fun g' hg' _ => ?_⟩
  · obtain rfl := Option.some.inj (hg'.symm.trans hg)
    exact .inr hlength.ge
  · obtain ⟨cx, cy, hx, -, hy, hcolumns⟩ := exists_columns_eq hv hg
    have hfront : lead.length = (ix.columns.take g.first).length := by
      rw [hlead, length_take_columns hv hg]
    rw [hcolumns, zip_append_of_length_le hfront.le] at hconforms
    rw [hcolumns, List.zip_append hfront, List.forall_mem_append]
    refine ⟨hconforms, ?_⟩
    rw [List.zip_cons_cons, List.zip_cons_cons, List.forall_mem_cons, List.forall_mem_cons]
    exact ⟨by rw [hx]; rfl, by rw [hy]; rfl, by simp⟩
  · obtain rfl := Option.some.inj (hg'.symm.trans hg)
    rw [List.drop_left' hlead, hv.dimensions g' hg]
    exact .inr ⟨a, b, z, rfl, hz⟩

/-- A row that begins with the leading values of a bound is compared with it by ordinals. -/
theorem compareBound_point (hv : ix.Valid) (hg : ix.spatial = some g)
    (hlead : lead.length = g.first)
    (hleads : List.Forall₂ (fun v w => v.totalCompare w = .eq) (row.take g.first) lead)
    (hpoint : (row.drop g.first).take g.dimensions = [.int x, .int y])
    (hz : Space.latLon.shuffle [x, y] = .ok z) (hlow : Space.latLon.shuffle [a, b] = .ok low) :
    ix.compareBound row (lead ++ [.int a, .int b]) = Ord.compare z.toInt low.toInt := by
  have hfirst : (row.take g.first).length = g.first := hleads.length_eq.trans hlead
  rw [compareBound, length_point hv hg hlead, CoordinateGroup.after, List.take_add, hpoint]
  rw [collapse_point hv hg hfirst hz, collapse_point hv hg hlead hlow,
    Value.compareLex_append hleads]
  rw [List.compareLex_cons_cons, List.compareLex_nil_nil, Ordering.then_eq]
  rfl

end Index

/-- Both bounds are inclusive, and are the corners of a box behind leading values. -/
structure ScanRange.Spans (range : ScanRange) (env : Env) (lead : List Value) (box : Box) :
    Prop where
  low : ∃ es, range.low = some ⟨es, true⟩ ∧
    IndexScan.evalAll env es = .ok (lead ++ [.int box.low.1, .int box.low.2])
  high : ∃ es, range.high = some ⟨es, true⟩ ∧
    IndexScan.evalAll env es = .ok (lead ++ [.int box.high.1, .int box.high.2])

namespace IndexScan

variable {s : IndexScan} {g : CoordinateGroup} {lead row : List Value} {box : Box} {env : Env}

theorem encodes_of_spans (hv : s.index.Valid) (hg : s.index.spatial = some g)
    (hlead : lead.length = g.first)
    (hconforms : ∀ p ∈ lead.zip s.index.columns, p.1.conforms p.2.type = true)
    (hbox : box.Bounded) (h : s.range.Spans env lead box) : s.Encodes env := by
  obtain ⟨low, high, hlow, hhigh, -⟩ := hbox.exists_shuffle .latLon
  obtain ⟨lows, hlows, hlowValues⟩ := h.low
  obtain ⟨highs, hhighs, hhighValues⟩ := h.high
  obtain ⟨lowKey, hlowKey⟩ := (Index.exists_encodeLeading_iff hv).mpr
    (Index.storable_point hv hg hlead hconforms hlow)
  obtain ⟨highKey, hhighKey⟩ := (Index.exists_encodeLeading_iff hv).mpr
    (Index.storable_point hv hg hlead hconforms hhigh)
  intro bound hbound
  rw [ScanRange.bounds, hlows, hhighs] at hbound
  rcases List.mem_pair.mp hbound with rfl | rfl
  · exact ⟨_, lowKey, hlowValues, hlowKey⟩
  · exact ⟨_, highKey, hhighValues, hhighKey⟩

/-- The rows of a box satisfy the bounds. -/
theorem admits_of_inBox (hv : s.index.Valid) (hg : s.index.spatial = some g)
    (hlead : lead.length = g.first) (hbox : box.Bounded) (h : s.range.Spans env lead box)
    (hrow : Index.InBox g lead box row) : s.Admits env row := by
  obtain ⟨low, high, hlow, hhigh, hbetween⟩ := hbox.exists_shuffle .latLon
  obtain ⟨lows, hlows, hlowValues⟩ := h.low
  obtain ⟨highs, hhighs, hhighValues⟩ := h.high
  obtain ⟨x, y, hpoint, hcontains⟩ := hrow.point
  -- all that is used of the curve: ordinals in the box lie between those of the corners
  obtain ⟨z, hz, habove, hbelow⟩ := hbetween x y hcontains
  rw [Int64.le_iff_toInt_le] at habove hbelow
  rw [admits_iff, hlows, hhighs, demands_some_iff hlowValues, demands_some_iff hhighValues,
    Index.compareBound_point hv hg hlead hrow.leads hpoint hz hlow,
    Index.compareBound_point hv hg hlead hrow.leads hpoint hz hhigh]
  constructor
  · rcases habove.lt_or_eq with hlt | heq
    · exact .inl (compare_gt_iff_gt.mpr hlt)
    · exact .inr ⟨rfl, compare_eq_iff_eq.mpr heq.symm⟩
  · rcases hbelow.lt_or_eq with hlt | heq
    · exact .inl (compare_lt_iff_lt.mpr hlt)
    · exact .inr ⟨rfl, compare_eq_iff_eq.mpr heq⟩

end IndexScan

namespace Plan

/-- A scan between the corners of a box misses no row of the box. -/
theorem execute_of_spans {d : Index.Draft} {ix : Index} (hdraft : d.build = .ok ix)
    (htable : Layout.ZeroFree ix.table) (hname : Layout.ZeroFree ix.name) {g : CoordinateGroup}
    (hg : ix.spatial = some g) {rows : List (List Value)} {store : Store}
    (hholds : ix.Holds rows store) {range : ScanRange} {ordering : List Bool} {p : Plan}
    (hp : ofScan ix range ordering = .ok p) {env : Env} {lead : List Value} {box : Box}
    (hspans : range.Spans env lead box) (hlead : lead.length = g.first)
    (hconforms : ∀ p ∈ lead.zip ix.columns, p.1.conforms p.2.type = true) (hbox : box.Bounded)
    {ctx : Context} {w : World} (hw : Calm ctx store w) :
    ∃ out, (p.execute ctx env w).1 = .ok out ∧
      ∀ row ∈ rows, Index.InBox g lead box row →
        row.map Value.canonical ∈ out.map Row.values := by
  have hv := Index.valid_of_build hdraft
  have hbuilt : Built .builtins p := .scan htable hname hp
  obtain ⟨s, hbuild, h⟩ := Except.bind_eq_ok_iff.mp hp
  obtain ⟨⟨⟩, -, h⟩ := Except.bind_eq_ok_iff.mp h
  obtain rfl := Except.ok.inj h
  obtain ⟨rfl, rfl, -⟩ := IndexScan.build_eq_ok hbuild
  obtain ⟨l, hlisting, hfate, hmem, -⟩ := IndexScan.listing_of_holds hv hbuild
    (IndexScan.encodes_of_spans hv hg hlead hconforms hbox hspans) hholds
  obtain ⟨found, fate⟩ := l
  obtain rfl : fate = .ok () := hfate
  refine ⟨found, (hbuilt.execute_eq_ok_iff hw).mpr (listing_eq_ok_iff_denotes.mp hlisting), ?_⟩
  intro row hrow hinside
  exact (hmem _).mpr ⟨row, hrow,
    IndexScan.admits_of_inBox hv hg hlead hbox hspans hinside, rfl⟩

/-- Points of 32-bit coordinates and 64-bit ordinals determine each other, and of two points of
which one lies above the other, its ordinal is the greater.  The points of a box have ordinals
between those of its extreme corners, so that a scan between the corners, both included, returns
every row of the box. -/
theorem curve_is_monotone_bijection (space : Space) :
    (∀ a b, Space.Fits a → Space.Fits b →
        ∃ z, space.shuffle [a, b] = .ok z ∧ space.unshuffle z = [a, b]) ∧
      (∀ z, ∃ a b, space.unshuffle z = [a, b] ∧ Space.Fits a ∧ Space.Fits b ∧
        space.shuffle [a, b] = .ok z) ∧
      (∀ a b a' b' z z', space.shuffle [a, b] = .ok z → space.shuffle [a', b'] = .ok z' →
        a ≤ a' → b ≤ b' → (a, b) ≠ (a', b') → z < z') ∧
      (∀ box : Box, box.Bounded → ∃ low high,
        space.shuffle [box.low.1, box.low.2] = .ok low ∧
        space.shuffle [box.high.1, box.high.2] = .ok high ∧
        ∀ x y, box.Contains x y → ∃ z, space.shuffle [x, y] = .ok z ∧ low ≤ z ∧ z ≤ high) ∧
      ∀ (d : Index.Draft) (ix : Index) (g : CoordinateGroup), d.build = .ok ix →
        Layout.ZeroFree ix.table → Layout.ZeroFree ix.name → ix.spatial = some g →
        ∀ (rows : List (List Value)) (store : Store), ix.Holds rows store →
        ∀ (range : ScanRange) (ordering : List Bool) (p : Plan),
          ofScan ix range ordering = .ok p →
        ∀ (env : Env) (lead : List Value) (box : Box), range.Spans env lead box →
          lead.length = g.first →
          (∀ q ∈ lead.zip ix.columns, q.1.conforms q.2.type = true) → box.Bounded →
        ∀ (ctx : Context) (w : World), Calm ctx store w →
          ∃ out, (p.execute ctx env w).1 = .ok out ∧
            ∀ row ∈ rows, Index.InBox g lead box row →
              row.map Value.canonical ∈ out.map Row.values := by
  refine ⟨?_, space.exists_unshuffle_eq, ?_, fun box hbox => hbox.exists_shuffle space, ?_⟩
  · intro a b ha hb
    obtain ⟨z, hz⟩ := Space.exists_shuffle_eq_ok_iff.mpr ⟨ha, hb⟩
    exact ⟨z, hz, Space.unshuffle_shuffle hz⟩
  · intro a b a' b' z z' hz hz'
    exact Space.shuffle_lt_shuffle hz hz'
  · intro d ix g hdraft htable hname hg rows store hholds range ordering p hp env lead box hspans
      hlead hconforms hbox ctx w hw
    exact execute_of_spans hdraft htable hname hg hholds hp hspans hlead hconforms hbox hw

/-- Two points on either side of the origin, behind a text. -/
theorem curve_is_monotone_bijection_around_origin :
    let columns : List Column := [⟨"a", .string, true, .declared⟩, ⟨"x", .int, true, .declared⟩,
      ⟨"y", .int, true, .declared⟩]
    let ix : Index := ⟨"t", "i", columns, 3, false, some ⟨1, 2⟩⟩
    let near : List Value := [.string "k", .int (-3), .int 5]
    let far : List Value := [.string "k", .int 4, .int (-1)]
    let entry := fun row => Layout.storedKey "t.i" ((ix.encodeRow row).toOption.getD [])
    let store := (Store.empty.insert (entry far) []).insert (entry near) []
    let corner := fun x y => ScanBound.mk [.literal (.string "k"), .literal (.int x),
      .literal (.int y)] true
    let p : Plan := .scan ⟨ix, ⟨some (corner (-4) (-2)), some (corner 4 6)⟩, .forward, false,
      IndexScan.rowTypeOf ix⟩
    let made := (World.ofEngine ⟨store, [], 0⟩).newContext {}
    ∃ out, (p.execute made.1 .root made.2).1 = .ok out ∧
      near ∈ out.map Row.values ∧ far ∈ out.map Row.values := by
  intro columns ix near far entry store corner p made
  let d : Index.Draft := { table := "t", name := "i", columns, spatial := some ⟨1, 2⟩ }
  have hholds : ix.Holds [near, far] store :=
    ((Index.holds_empty ix).insert rfl []).insert rfl []
  let range : ScanRange := ⟨some (corner (-4) (-2)), some (corner 4 6)⟩
  let box : Box := ⟨(-4, -2), (4, 6)⟩
  have hspans : range.Spans .root [.string "k"] box := ⟨⟨_, rfl, rfl⟩, ⟨_, rfl, rfl⟩⟩
  have hbox : box.Bounded := ⟨⟨by decide, by decide⟩, by decide, by decide⟩
  obtain ⟨-, -, -, -, hscan⟩ := curve_is_monotone_bijection .latLon
  obtain ⟨out, hout, hmem⟩ := hscan d ix ⟨1, 2⟩ rfl (by decide +kernel) (by decide +kernel) rfl
    _ store hholds range [] p rfl .root [.string "k"] box hspans rfl (by decide) hbox made.1
    made.2 ⟨rfl, rfl, rfl⟩
  refine ⟨out, hout, hmem near (by simp) ⟨by decide, -3, 5, rfl, ?_⟩,
    hmem far (by simp) ⟨by decide, 4, -1, rfl, ?_⟩⟩ <;> decide

end Plan
end OrderedQuery
