import OrderedQuery.Proofs.Cursor.StoredRows
import OrderedQuery.Proofs.Index.RoundTrip
import OrderedQuery.Proofs.Key.Leading
import Mathlib.Data.List.Pairwise

/-!
# The order a scan is asked for

A scan is asked for an order of leading columns and walks the stored columns forward or
backward.  In front of the coordinates of a spatial index stored columns are columns of the row,
so there the rows come in the order asked for.  From the first coordinate on they come by their
places on the z-order curve, which is not the order of the coordinates; an order that reaches the
coordinates is accepted all the same.
-/

namespace OrderedQuery
namespace Index

variable {ix : Index} {g : CoordinateGroup}

/-- The first `m` columns lie in front of the coordinates. -/
def InFront (ix : Index) (m : Nat) : Prop :=
  ∀ g, ix.spatial = some g → m ≤ g.first

theorem take_descents (hv : ix.Valid) {m : Nat} (hm : ix.InFront m) :
    ix.descents.take m = (ix.columns.map fun c => !c.ascending).take m := by
  cases hg : ix.spatial with
  | none => rw [descents_of_spatial_eq_none hg]
  | some g =>
      have hle := hm g hg
      rw [descents_of_spatial_eq_some hg, List.take_append_of_le_length, ← List.map_take,
        List.take_take, Nat.min_eq_left hle, List.map_take]
      rwa [List.length_map, length_take_columns hv hg]

theorem take_collapse {m : Nat} (hm : ix.InFront m) (values : List Value) :
    (ix.collapse values).take m = values.take m := by
  cases hg : ix.spatial with
  | none => rw [collapse_of_none hg]
  | some g =>
      by_cases hshort : values.length < g.after
      · rw [collapse_of_lt hg hshort]
      · have hle := hm g hg
        have hlong := Nat.not_lt.mp hshort
        rw [CoordinateGroup.after] at hlong
        rw [collapse_of_le hg (Nat.not_lt.mp hshort), List.take_append_of_le_length,
          List.take_take, Nat.min_eq_left hle]
        rw [List.length_take]
        omega

/-- In front of the coordinates rows are ordered by their own columns. -/
theorem compareColumns_take_descents (hv : ix.Valid) {m : Nat} (hm : ix.InFront m)
    (a b : List Value) :
    Key.compareColumns (ix.descents.take m) (ix.collapse a) (ix.collapse b) =
      Key.compareColumns ((ix.columns.map fun c => !c.ascending).take m) a b := by
  rw [take_descents hv hm, Key.compareColumns_take_directions, take_collapse hm, take_collapse hm,
    ← Key.compareColumns_take_directions]

/-! ## Rows that hold a point -/

/-- The row of a point in the plane, all else null. -/
def pointRow (ix : Index) (g : CoordinateGroup) (x y : Int64) : List Value :=
  List.replicate g.first .null ++ .int x :: .int y ::
    List.replicate (ix.columns.length - g.after) .null

@[simp]
theorem map_canonical_pointRow (g : CoordinateGroup) (x y : Int64) :
    (ix.pointRow g x y).map Value.canonical = ix.pointRow g x y := by
  simp [pointRow, Value.canonical]

theorem length_pointRow (hv : ix.Valid) (hg : ix.spatial = some g) (x y : Int64) :
    (ix.pointRow g x y).length = ix.columns.length := by
  have hafter := after_eq hv hg
  have hwithin := hv.within g hg
  simp only [pointRow, List.length_append, List.length_replicate, List.length_cons]
  omega

theorem pointRow_eq (g : CoordinateGroup) (x y : Int64) :
    ix.pointRow g x y = List.replicate g.first .null ++ [.int x, .int y] ++
      List.replicate (ix.columns.length - g.after) .null := by
  rw [List.append_assoc]
  rfl

theorem group_pointRow (hv : ix.Valid) (hg : ix.spatial = some g) (x y : Int64) :
    ((ix.pointRow g x y).drop g.first).take g.dimensions = [.int x, .int y] := by
  rw [pointRow_eq, group_append hv hg (List.length_replicate ..) rfl]

theorem collapse_pointRow (hv : ix.Valid) (hg : ix.spatial = some g) (x y : Int64) :
    ix.collapse (ix.pointRow g x y) =
      List.replicate g.first .null ++ groupValue [.int x, .int y] ::
        List.replicate (ix.columns.length - g.after) .null := by
  rw [pointRow_eq, collapse_append hv hg (List.length_replicate ..) rfl]

/-- A point of the plane can be stored. -/
theorem exists_encodeRow_pointRow (hv : ix.Valid) (hg : ix.spatial = some g) {x y : Int64}
    (hpoint : ∃ z, Space.latLon.shuffle [x, y] = .ok z) :
    ∃ key, ix.encodeRow (ix.pointRow g x y) = .ok key := by
  have hlength := length_pointRow hv hg x y
  refine (exists_encodeRow_iff hv).mpr ⟨hlength, (storable_iff hv hlength).mpr ⟨?_, ?_⟩⟩
  · obtain ⟨cx, cy, htypeX, -, htypeY, hcolumns⟩ := exists_columns_eq hv hg
    have hfront : (List.replicate g.first Value.null).length =
        (ix.columns.take g.first).length := by
      rw [List.length_replicate, length_take_columns hv hg]
    have hnull (n : Nat) (columns : List Column) :
        ∀ p ∈ (List.replicate n Value.null).zip columns, p.1.conforms p.2.type = true := by
      intro p hp
      obtain ⟨-, hvalue⟩ := List.mem_replicate.mp (List.of_mem_zip hp).1
      rw [hvalue]
      rfl
    rw [hcolumns, pointRow, List.zip_append hfront, List.zip_cons_cons, List.zip_cons_cons,
      List.forall_mem_append, List.forall_mem_cons, List.forall_mem_cons]
    exact ⟨hnull _ _, by rw [htypeX]; rfl, by rw [htypeY]; rfl, hnull _ _⟩
  · intro g' hg'
    obtain rfl := Option.some.inj (hg'.symm.trans hg)
    obtain ⟨z, hz⟩ := hpoint
    rw [group_pointRow hv hg, inSpace_iff rfl]
    exact .inr ⟨x, y, z, rfl, hz⟩

/-- Points are stored in the order of their ordinals. -/
theorem compareRows_pointRow (hv : ix.Valid) (hg : ix.spatial = some g) (x y x' y' : Int64) :
    ix.compareRows (ix.pointRow g x y) (ix.pointRow g x' y') =
      (groupValue [.int x, .int y]).totalCompare (groupValue [.int x', .int y']) := by
  have hfront : (List.replicate g.first Value.null).length =
      ((ix.columns.take g.first).map fun c => !c.ascending).length := by
    rw [List.length_replicate, List.length_map, length_take_columns hv hg]
  rw [compareRows, descents_of_spatial_eq_some hg, collapse_pointRow hv hg,
    collapse_pointRow hv hg, Key.compareColumns_append hfront hfront, Key.compareColumns_self,
    Ordering.eq_then, Key.compareColumns, Key.compareColumns_self, Ordering.then_eq]
  rfl

end Index

namespace IndexScan

/-- The order of two rows by as many leading columns as an order is given for, each ascending or
descending as it says. -/
def requestedOrder (ordering : List Bool) (a b : List Value) : Ordering :=
  Key.compareColumns (ordering.map (!·)) a b

/-- In no run over a store that holds rows of the index a row is returned before one that comes
first in the given order. -/
def Delivers (scan : IndexScan) (ordering : List Bool) : Prop :=
  ∀ (rows : List (List Value)) (store : Store), scan.index.Holds rows store →
    ∀ (ctx : Context) (w : World), w.engine.view ctx.session = store →
      ∀ (fuel : Nat) (s : IndexScanCursor.State),
        (((IndexScanCursor.machine scan).runWith ctx fuel s w).1.map Row.values).Pairwise
          fun a b => (requestedOrder ordering a b).isLE

/-! ## Accepted orders -/

/-- Whether a column descends when it is read in a direction of the index. -/
def descendsAlong (direction : Direction) (c : Column) : Bool :=
  match direction with
  | .forward => !c.ascending
  | .backward => c.ascending

theorem map_not_eq_of_all_zip {descends : Column → Bool} {ordering : List Bool}
    {columns : List Column} (hlength : ordering.length ≤ columns.length)
    (hall : ∀ p ∈ ordering.zip columns, (!p.1) = descends p.2) :
    ordering.map (!·) = (columns.map descends).take ordering.length := by
  induction ordering generalizing columns with
  | nil => rfl
  | cons asked ordering ih =>
      cases columns with
      | nil => simp at hlength
      | cons c columns =>
          rw [List.zip_cons_cons, List.forall_mem_cons] at hall
          rw [List.map_cons, List.map_cons, List.length_cons, List.take_succ_cons,
            ih (by simpa using hlength) hall.2, hall.1]

/-- An accepted order is that of the columns in the direction of the scan. -/
theorem map_not_of_scanDirection {ix : Index} {ordering : List Bool} {direction : Direction}
    (h : scanDirection ix ordering = .ok direction) :
    ordering.map (!·) =
      (ix.columns.map (descendsAlong direction)).take ordering.length := by
  rw [scanDirection] at h
  dsimp only at h
  split at h
  · cases h
  · rename_i hlength
    refine map_not_eq_of_all_zip (Nat.not_lt.mp hlength) fun p hp => ?_
    split at h
    · rename_i hsame
      have hp' := List.all_eq_true.mp hsame p hp
      obtain rfl := Except.ok.inj h
      rw [beq_iff_eq.mp hp']
      rfl
    · split at h
      · rename_i hreverse
        have hp' := List.all_eq_true.mp hreverse p hp
        obtain rfl := Except.ok.inj h
        exact Bool.not_eq.mpr (bne_iff_ne.mp hp')
      · cases h

variable {s : IndexScan} {ordering : List Bool}

/-- Rows that follow each other in a scan are in the order asked for, as far as it stays in front
of the coordinates. -/
theorem Precedes.requestedOrder_isLE (hv : s.index.Valid)
    (haccepted : scanDirection s.index ordering = .ok s.direction) {m : Nat}
    (hm : s.index.InFront m) {a b : List Value} (h : s.Precedes a b) :
    (requestedOrder (ordering.take m) a b).isLE := by
  have hfront : s.index.InFront (min m ordering.length) := fun g hg =>
    (Nat.min_le_left _ _).trans (hm g hg)
  have hcolumns := Index.compareColumns_take_descents hv hfront a b
  rw [requestedOrder, List.map_take, map_not_of_scanDirection haccepted, List.take_take]
  rw [Precedes, Index.compareRows] at h
  cases hdirection : s.direction with
  | forward =>
      rw [hdirection] at h
      have hle := Key.isLE_compareColumns_take h (min m ordering.length)
      rw [hcolumns] at hle
      exact hle
  | backward =>
      rw [hdirection] at h
      have hreverse : Key.compareColumns (s.index.descents.map (!·)) (s.index.collapse a)
          (s.index.collapse b) = .lt := by
        rw [Key.compareColumns_map_not, h]
        rfl
      have hle := Key.isLE_compareColumns_take hreverse (min m ordering.length)
      rw [← List.map_take, Key.compareColumns_map_not, hcolumns,
        ← Key.compareColumns_map_not, List.map_take, List.map_map] at hle
      have hturned : (fun d => !d) ∘ (fun c : Column => !c.ascending) =
          descendsAlong .backward := by
        funext c
        exact Bool.not_not c.ascending
      rwa [hturned] at hle

/-- An order that reaches the coordinates orders points by the first of them. -/
theorem requestedOrder_pointRow {ix : Index} (hv : ix.Valid) {g : CoordinateGroup}
    (hg : ix.spatial = some g) {direction : Direction}
    (haccepted : scanDirection ix ordering = .ok direction) (hreach : g.first < ordering.length)
    {x x' : Int64} (hne : Ord.compare x.toInt x'.toInt ≠ .eq) (y y' : Int64) :
    requestedOrder ordering (ix.pointRow g x y) (ix.pointRow g x' y') =
      if direction = .forward then Ord.compare x.toInt x'.toInt
      else (Ord.compare x.toInt x'.toInt).swap := by
  obtain ⟨cx, cy, -, hascending, -, hcolumns⟩ := Index.exists_columns_eq hv hg
  have hfirst := Index.length_take_columns hv hg
  have hfront : (List.replicate g.first Value.null).length =
      ((ix.columns.take g.first).map (descendsAlong direction)).length := by
    rw [List.length_replicate, List.length_map, hfirst]
  have hmap : ix.columns.map (descendsAlong direction) =
      (ix.columns.take g.first).map (descendsAlong direction) ++
        descendsAlong direction cx ::
          (cy :: ix.columns.drop g.after).map (descendsAlong direction) := by
    rw [← List.map_cons, ← List.map_append, ← hcolumns]
  obtain ⟨k, hk⟩ : ∃ k, ordering.length =
      ((ix.columns.take g.first).map (descendsAlong direction)).length + (k + 1) := by
    rw [List.length_map, hfirst]
    exact Nat.exists_eq_add_of_lt hreach
  rw [requestedOrder, map_not_of_scanDirection haccepted, hmap, hk,
    List.take_length_add_append, List.take_succ_cons, Index.pointRow, Index.pointRow,
    Key.compareColumns_append hfront hfront, Key.compareColumns_self, Ordering.eq_then,
    Key.compareColumns]
  have hx : Value.totalCompare (.int x) (.int x') = Ord.compare x.toInt x'.toInt := rfl
  rw [Value.directedCompare, hx]
  cases direction <;> cases hcompare : Ord.compare x.toInt x'.toInt <;>
    first | exact absurd hcompare hne | simp [descendsAlong, hascending]

/-- Of the two points the one that a scan returns first comes last in the order asked for. -/
theorem Precedes.requestedOrder_points (hv : s.index.Valid)
    (haccepted : scanDirection s.index ordering = .ok s.direction) {g : CoordinateGroup}
    (hg : s.index.spatial = some g) (hreach : g.first < ordering.length) :
    (s.Precedes (s.index.pointRow g 1 0) (s.index.pointRow g 0 3) →
        requestedOrder ordering (s.index.pointRow g 1 0) (s.index.pointRow g 0 3) = .gt) ∧
      (s.Precedes (s.index.pointRow g 0 3) (s.index.pointRow g 1 0) →
        requestedOrder ordering (s.index.pointRow g 0 3) (s.index.pointRow g 1 0) = .gt) := by
  have hlt : s.index.compareRows (s.index.pointRow g 1 0) (s.index.pointRow g 0 3) = .lt := by
    rw [Index.compareRows_pointRow hv hg]
    decide +kernel
  have hgt : s.index.compareRows (s.index.pointRow g 0 3) (s.index.pointRow g 1 0) = .gt := by
    rw [Index.compareRows_pointRow hv hg]
    decide +kernel
  rw [Precedes, Precedes, hlt, hgt]
  have horder (x x' y y' : Int64) (hne : Ord.compare x.toInt x'.toInt ≠ .eq) :=
    requestedOrder_pointRow hv hg haccepted hreach hne y y'
  rw [horder 1 0 0 3 (by decide), horder 0 1 3 0 (by decide)]
  cases s.direction <;> decide

end IndexScan

/-! ## Runs over one store -/

namespace IndexScanCursor

variable {ix : Index} {scan : IndexScan} {ctx : Context} {store : Store}

/-- A call of `next` that returns a row returns that of the next entry. -/
theorem next_cases (scan : IndexScan) {rest : List Entry} {s : State}
    (hat : At store s.run rest) {w : World} (hview : w.engine.view ctx.session = store) :
    (∀ row, (next scan ctx s w).result ≠ .ok (some row)) ∨
      ∃ e rest' row s' w', rest = e :: rest' ∧ rowOf scan e.1 = .ok row ∧
        next scan ctx s w = ⟨.ok (some row), s', w'⟩ ∧ At store s'.run rest' ∧
        w'.engine.view ctx.session = store := by
  have hengine : (w.check ctx).2.engine = w.engine := rfl
  rw [next]
  generalize w.check ctx = checked at hengine
  obtain ⟨result, w₁⟩ := checked
  have hview₁ : w₁.engine.view ctx.session = store := by
    rw [show w₁.engine = w.engine from hengine, hview]
  cases s.base.checkNext with
  | error err => exact .inl fun row h => by cases h
  | ok u =>
      cases result with
      | error err => exact .inl fun row h => by cases h
      | ok u =>
          cases rest with
          | nil =>
              have hnone : (advance ctx w₁ s.run).1 = none := advance_nil hat hview₁
              dsimp only
              generalize advance ctx w₁ s.run = advanced at hnone
              obtain ⟨entry, run⟩ := advanced
              obtain rfl : entry = none := hnone
              exact .inl fun row h => by cases h
          | cons e rest =>
              obtain ⟨run, hadvance, hat'⟩ : ∃ run,
                  advance ctx w₁ s.run = (some e, run) ∧ At store run rest :=
                advance_cons hat hview₁
              dsimp only
              rw [hadvance]
              dsimp only
              cases hrow : rowOf scan e.1 with
              | error err => exact .inl fun row h => by cases h
              | ok row => exact .inr ⟨e, rest, row, _, _, rfl, hrow, rfl, hat', hview₁⟩

/-- Whatever ends a run, the rows returned until then are the first of the listing. -/
theorem drainWith_isPrefix {rest : List Entry} {s : State} (hat : At store s.run rest) {w : World}
    (hview : w.engine.view ctx.session = store) (fuel : Nat) :
    ((machine scan).drainWith ctx fuel s w).1 <+: (scan.decodeRows rest).rows := by
  induction fuel generalizing rest s w with
  | zero => exact List.nil_prefix
  | succ fuel ih =>
      have hnext : (machine scan).next ctx s w = next scan ctx s w := rfl
      rw [Machine.drainWith, hnext]
      rcases next_cases scan hat hview with
        hno | ⟨e, rest', row, s', w', rfl, hrow, heq, hat', hview'⟩
      · generalize next scan ctx s w = o at hno
        obtain ⟨result, s', w'⟩ := o
        cases result with
        | error err => exact List.nil_prefix
        | ok found =>
            cases found with
            | none => exact List.nil_prefix
            | some row => exact absurd rfl (hno row)
      · rw [heq, IndexScan.decodeRows]
        simp only [hrow]
        exact List.cons_prefix_cons.mpr ⟨rfl, ih hat' hview'⟩

/-- The rows of a run, from the opening on, are the first of those in some range of keys. -/
theorem exists_runWith_isPrefix (hfree : Layout.ZeroFree scan.index.storageTable) {w : World}
    (hview : w.engine.view ctx.session = store) (fuel : Nat) (s : State) :
    ∃ found, ((machine scan).runWith ctx fuel s w).1 <+:
      (scan.decodeRows (scan.entries store found)).rows := by
  have hopen : (machine scan).openRun ctx s w = openRun scan ctx s w := rfl
  rw [Machine.runWith, hopen, openRun]
  cases s.base.beginOpen with
  | error err => exact ⟨none, List.nil_prefix⟩
  | ok base =>
      dsimp only
      rw [traversal?]
      cases base.currentEnv with
      | error err => exact ⟨none, List.nil_prefix⟩
      | ok env =>
          dsimp only [bind, Except.bind]
          cases scan.keyRange env with
          | error err => exact ⟨none, List.nil_prefix⟩
          | ok found =>
              refine ⟨found, drainWith_isPrefix ?_ hview fuel⟩
              cases found with
              | none => rfl
              | some r => exact Traversal.at_start hfree store r _ _

/-- As far as an accepted order stays in front of the coordinates, the rows come in it. -/
theorem delivers_take (hv : scan.index.Valid)
    (hfree : Layout.ZeroFree scan.index.storageTable) {ix : Index} {range : ScanRange}
    {ordering : List Bool} (hscan : IndexScan.build ix range ordering = .ok scan) {m : Nat}
    (hm : ix.InFront m) : scan.Delivers (ordering.take m) := by
  obtain ⟨rfl, -, htype, haccepted, -⟩ := IndexScan.build_eq_ok hscan
  intro rows store hholds ctx w hview fuel s
  obtain ⟨found, hleading⟩ := exists_runWith_isPrefix hfree hview fuel s
  have hpairs := IndexScan.pairwise_decodeRows hv htype hholds found
  exact (hpairs.sublist (hleading.sublist.map Row.values)).imp
    (IndexScan.Precedes.requestedOrder_isLE hv haccepted hm)

/-- A scan without bounds has a run that returns all rows of the index. -/
theorem exists_runWith_all (hv : ix.Valid) (hfree : Layout.ZeroFree ix.storageTable)
    {ordering : List Bool} (hscan : IndexScan.build ix ⟨none, none⟩ ordering = .ok scan)
    {rows : List (List Value)} (hholds : ix.Holds rows store) :
    ∃ (ctx : Context) (w : World) (fuel : Nat) (s : State), w.engine.view ctx.session = store ∧
      (∀ row ∈ rows, row.map Value.canonical ∈
        ((machine scan).runWith ctx fuel s w).1.map Row.values) ∧
      (((machine scan).runWith ctx fuel s w).1.map Row.values).Pairwise scan.Precedes := by
  obtain ⟨hindex, hrange, -⟩ := IndexScan.build_eq_ok hscan
  have hencodes : scan.Encodes .root := by simp [IndexScan.Encodes, hrange, ScanRange.bounds]
  have hadmits (row : List Value) : scan.Admits .root row := ⟨by simp [hrange], by simp [hrange]⟩
  obtain ⟨l, hlisting, -, hmem, hprecedes⟩ :=
    IndexScan.listing_of_holds hv hscan hencodes hholds
  let made := (World.ofEngine ⟨store, [], 0⟩).newContext {}
  let s : State := ⟨(CursorBase.start "IndexScan").bind (some .root), .ofEnv .root, none⟩
  have hcalm : Calm made.1 store made.2 := ⟨rfl, rfl, rfl⟩
  have hidle : Leaf.Idle (.ofEnv .root) (some .root) s := ⟨rfl, rfl, rfl⟩
  have hfree' : Layout.ZeroFree scan.index.storageTable := by rwa [hindex]
  have hopens := opens hfree' made.1 store hidle hcalm
  rw [hlisting] at hopens
  obtain ⟨opened, w', hopened, hhands, hcalm'⟩ := hopens
  obtain ⟨s', w'', hdrain, -, -⟩ := hhands.drainWith hcalm' (Nat.lt_succ_self _)
  have hrun : ((machine scan).runWith made.1 (l.rows.length + 1) s made.2).1 = l.rows := by
    rw [Machine.runWith, hopened]
    exact congrArg Prod.fst hdrain
  refine ⟨made.1, made.2, l.rows.length + 1, s, rfl, ?_, ?_⟩
  · intro row hrow
    rw [hrun]
    exact (hmem _).mpr ⟨row, hrow, hadmits row, rfl⟩
  · rwa [hrun]

/-- Once it reaches the coordinates an accepted order is broken by a scan of the whole index, over
a store that holds two points. -/
theorem exists_not_delivers (hv : ix.Valid) (hfree : Layout.ZeroFree ix.storageTable)
    {ordering : List Bool} {direction : Direction}
    (haccepted : IndexScan.scanDirection ix ordering = .ok direction) {g : CoordinateGroup}
    (hg : ix.spatial = some g) (hreach : g.first < ordering.length) :
    ∃ range scan, IndexScan.build ix range ordering = .ok scan ∧ ¬ scan.Delivers ordering := by
  let scan : IndexScan := ⟨ix, ⟨none, none⟩, direction, false, IndexScan.rowTypeOf ix⟩
  have hscan : IndexScan.build ix ⟨none, none⟩ ordering = .ok scan := by
    rw [IndexScan.build, haccepted]
    rfl
  refine ⟨⟨none, none⟩, scan, hscan, fun hdelivers => ?_⟩
  obtain ⟨keyA, hkeyA⟩ := Index.exists_encodeRow_pointRow hv hg (x := 1) (y := 0)
    (Space.exists_shuffle_eq_ok_iff.mpr (by decide))
  obtain ⟨keyB, hkeyB⟩ := Index.exists_encodeRow_pointRow hv hg (x := 0) (y := 3)
    (Space.exists_shuffle_eq_ok_iff.mpr (by decide))
  have hholds := ((Index.holds_empty ix).insert hkeyB []).insert hkeyA []
  obtain ⟨ctx, w, fuel, s, hview, hall, hprecedes⟩ :=
    exists_runWith_all hv hfree hscan hholds
  have horder := hdelivers _ _ hholds ctx w hview fuel s
  generalize ((machine scan).runWith ctx fuel s w).1.map Row.values = out at hall hprecedes horder
  have ha : ix.pointRow g 1 0 ∈ out := by simpa using hall _ List.mem_cons_self
  have hb : ix.pointRow g 0 3 ∈ out := by
    simpa using hall _ (List.mem_cons_of_mem _ List.mem_cons_self)
  obtain ⟨hforward, hbackward⟩ :=
    IndexScan.Precedes.requestedOrder_points (s := scan) hv haccepted hg hreach
  -- One of the points is returned before the other, whichever way the scan goes.
  let Follow (a b : List Value) : Prop :=
    scan.Precedes a b ∧ (IndexScan.requestedOrder ordering a b).isLE
  have hsymm : Std.Symm fun a b => Follow a b ∨ Follow b a := ⟨fun _ _ => Or.symm⟩
  have hpairs := (hprecedes.and horder).imp (S := fun a b => Follow a b ∨ Follow b a) Or.inl
  have hne : ix.pointRow g 1 0 ≠ ix.pointRow g 0 3 := by simp [Index.pointRow]
  rcases hpairs.forall ha hb hne with ⟨hfollows, hle⟩ | ⟨hfollows, hle⟩
  · rw [hforward hfollows] at hle
    cases hle
  · rw [hbackward hfollows] at hle
    cases hle

/-- An accepted order is that of the rows, whatever is scanned and stored, exactly if it does not
reach the coordinates of a spatial index; and in front of the coordinates every accepted order
is. -/
theorem delivers_iff_inFront {d : Index.Draft} (hdraft : d.build = .ok ix)
    (htable : Layout.ZeroFree ix.table) (hname : Layout.ZeroFree ix.name) {ordering : List Bool}
    {direction : Direction} (haccepted : IndexScan.scanDirection ix ordering = .ok direction) :
    ((∀ range scan, IndexScan.build ix range ordering = .ok scan → scan.Delivers ordering) ↔
        ix.InFront ordering.length) ∧
      ∀ range scan, IndexScan.build ix range ordering = .ok scan →
        ∀ m, ix.InFront m → scan.Delivers (ordering.take m) := by
  have hv := Index.valid_of_build hdraft
  have hfree := Index.zeroFree_storageTable htable hname
  have htake (range : ScanRange) (scan : IndexScan)
      (hscan : IndexScan.build ix range ordering = .ok scan) (m : Nat) (hm : ix.InFront m) :
      scan.Delivers (ordering.take m) := by
    obtain ⟨rfl, -⟩ := IndexScan.build_eq_ok hscan
    exact delivers_take hv hfree hscan hm
  refine ⟨⟨?_, ?_⟩, htake⟩
  · intro hdelivers g hg
    by_contra hreach
    obtain ⟨range, scan, hscan, hnot⟩ :=
      exists_not_delivers hv hfree haccepted hg (Nat.lt_of_not_le hreach)
    exact hnot (hdelivers range scan hscan)
  · intro hfront range scan hscan
    have hwhole := htake range scan hscan ordering.length hfront
    rwa [List.take_length] at hwhole

/-- A descending column in front of the coordinates: it alone, and with the first coordinate. -/
theorem delivers_iff_inFront_of_point :
    let columns : List Column := [⟨"a", .string, false, .declared⟩, ⟨"x", .int, true, .declared⟩,
      ⟨"y", .int, true, .declared⟩]
    let ix : Index := ⟨"t", "i", columns, 3, false, some ⟨1, 2⟩⟩
    IndexScan.scanDirection ix [true] = .ok .backward ∧
      (∀ range scan, IndexScan.build ix range [true] = .ok scan → scan.Delivers [true]) ∧
      IndexScan.scanDirection ix [false, true] = .ok .forward ∧
      ¬ ∀ range scan, IndexScan.build ix range [false, true] = .ok scan →
        scan.Delivers [false, true] := by
  intro columns ix
  let d : Index.Draft := { table := "t", name := "i", columns, spatial := some ⟨1, 2⟩ }
  have hdraft : d.build = .ok ix := rfl
  have htable : Layout.ZeroFree ix.table := by decide +kernel
  have hname : Layout.ZeroFree ix.name := by decide +kernel
  have hbackward : IndexScan.scanDirection ix [true] = .ok .backward := rfl
  have hforward : IndexScan.scanDirection ix [false, true] = .ok .forward := rfl
  obtain ⟨hfront, -⟩ := delivers_iff_inFront hdraft htable hname hbackward
  obtain ⟨hreaches, -⟩ := delivers_iff_inFront hdraft htable hname hforward
  refine ⟨hbackward, hfront.mpr ?_, hforward, fun hdelivers => ?_⟩
  · rintro g ⟨⟩
    exact Nat.le_refl 1
  · exact absurd (hreaches.mp hdelivers _ rfl) (by decide)

/-- Two points in the order of their ordinals, when the order of both coordinates is asked for. -/
theorem not_delivers_coordinates :
    ¬ ∀ (d : Index.Draft) (ix : Index), d.build = .ok ix →
      Layout.ZeroFree ix.table → Layout.ZeroFree ix.name →
        ∀ (rows : List (List Value)) (store : Store), ix.Holds rows store →
          ∀ range ordering scan, IndexScan.build ix range ordering = .ok scan →
            ∀ (ctx : Context) (w : World), w.engine.view ctx.session = store →
              ∀ (fuel : Nat) (s : State),
                ((machine scan).runWith ctx fuel s w).2.result = .ok () →
                  (((machine scan).runWith ctx fuel s w).1.map Row.values).Pairwise
                    fun a b => (IndexScan.requestedOrder ordering a b).isLE := by
  intro hordered
  let columns : List Column := [⟨"x", .int, true, .declared⟩, ⟨"y", .int, true, .declared⟩]
  let d : Index.Draft := { table := "t", name := "i", columns, spatial := some ⟨0, 2⟩ }
  let ix : Index := ⟨"t", "i", columns, 2, false, some ⟨0, 2⟩⟩
  let scan : IndexScan := ⟨ix, ⟨none, none⟩, .forward, false, IndexScan.rowTypeOf ix⟩
  let store := (Store.empty.insert
      (Layout.storedKey "t.i" (Key.encode false (.int 4611686018427387909))) []).insert
    (Layout.storedKey "t.i" (Key.encode false (.int 4611686018427387906))) []
  have hholds : ix.Holds [[.int 1, .int 0], [.int 0, .int 3]] store :=
    ((Index.holds_empty ix).insert (by decide +kernel) []).insert (by decide +kernel) []
  let made := (World.ofEngine ⟨store, [], 0⟩).newContext {}
  let s : State := ⟨(CursorBase.start "IndexScan").bind (some .root), .ofEnv .root, none⟩
  have hdrained : ((machine scan).runWith made.1 3 s made.2).2.result = .ok () := by
    decide +kernel
  have hrows : ((machine scan).runWith made.1 3 s made.2).1.map Row.values =
      [[.int 1, .int 0], [.int 0, .int 3]] := by
    decide +kernel
  have hpairs := hordered d ix rfl (by decide +kernel) (by decide +kernel) _ store hholds
    ⟨none, none⟩ [true, true] scan rfl made.1 made.2 rfl 3 s hdrained
  rw [hrows] at hpairs
  exact absurd hpairs (by decide)

end IndexScanCursor
end OrderedQuery
