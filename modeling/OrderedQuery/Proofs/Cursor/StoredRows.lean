import OrderedQuery.Proofs.Cursor.Leaves
import OrderedQuery.Proofs.Plan.ScanRange
import OrderedQuery.Proofs.Row.Types

/-!
# The rows a scan returns

The rows of an index are stored under their keys in a table of their own.  Draining a scan
returns the rows that satisfy both bounds, each once and in the order of their keys.
-/

namespace OrderedQuery

namespace Index

variable {ix : Index}

/-- The entries of the index are the keys of the given rows. -/
structure Holds (ix : Index) (rows : List (List Value)) (store : Store) : Prop where
  encodes : ∀ row ∈ rows, ∃ key, ix.encodeRow row = .ok key
  mem_iff : ∀ key, (∃ value, (Layout.storedKey ix.storageTable key, value) ∈ store.entries) ↔
    ∃ row ∈ rows, ix.encodeRow row = .ok key

theorem holds_empty (ix : Index) : ix.Holds [] .empty :=
  ⟨by simp, by simp [Store.empty]⟩

/-- Storing one more row under its key. -/
theorem Holds.insert {rows : List (List Value)} {store : Store} (h : ix.Holds rows store)
    {row : List Value} {key : Bytes} (hkey : ix.encodeRow row = .ok key) (value : Bytes) :
    ix.Holds (row :: rows) (store.insert (Layout.storedKey ix.storageTable key) value) where
  encodes := by
    intro row' hrow'
    rcases List.mem_cons.mp hrow' with rfl | hmem
    · exact ⟨key, hkey⟩
    · exact h.encodes row' hmem
  mem_iff := by
    intro k
    rw [Store.exists_mem_insert_iff, h.mem_iff, Layout.storedKey_inj]
    constructor
    · rintro (rfl | ⟨row', hmem, hrow'⟩)
      · exact ⟨row, List.mem_cons_self, hkey⟩
      · exact ⟨row', List.mem_cons_of_mem _ hmem, hrow'⟩
    · rintro ⟨row', hmem, hrow'⟩
      rcases List.mem_cons.mp hmem with rfl | hmem
      · exact .inl (Except.ok.inj (hrow'.symm.trans hkey))
      · exact .inr ⟨row', hmem, hrow'⟩

theorem zeroFree_storageTable (htable : Layout.ZeroFree ix.table)
    (hname : Layout.ZeroFree ix.name) : Layout.ZeroFree ix.storageTable := by
  have hbytes : utf8 ix.storageTable = utf8 ix.table ++ utf8 "." ++ utf8 ix.name := by
    simp [utf8, storageTable, String.toByteArray_append]
  have hdot : Layout.ZeroFree "." := by decide +kernel
  intro b hb
  rw [hbytes, List.mem_append, List.mem_append] at hb
  rcases hb with (hb | hb) | hb
  · exact htable b hb
  · exact hdot b hb
  · exact hname b hb

/-- Values of the types of the columns make a row. -/
theorem check_rowTypeOf {row : List Value} (hlength : row.length = ix.columns.length)
    (htypes : checkTypes ix.columns row = .ok ()) :
    (IndexScan.rowTypeOf ix).check (row.map Value.canonical) = .ok () := by
  have hconforms := checkTypes_eq_ok_iff.mp htypes
  have hcolumns : List.Forall₂ (fun v c => v.canonical.conforms c.type = true) row ix.columns := by
    refine List.forall₂_iff_zip.mpr ⟨hlength, fun {v c} hmem => ?_⟩
    rw [Value.conforms_canonical]
    exact hconforms (v, c) hmem
  rw [RowType.check_eq_ok_iff, RowType.Describes, IndexScan.rowTypeOf]
  exact List.forall₂_map_left_iff.mpr (List.forall₂_map_right_iff.mpr hcolumns)

end Index

namespace IndexScan

variable {s : IndexScan}

/-- The values that are read back from a key. -/
def valuesAt (s : IndexScan) (key : Bytes) : List Value :=
  (s.index.decodeRow key).toOption.getD []

theorem valuesAt_of_encodeRow (hv : s.index.Valid) {row : List Value} {key : Bytes}
    (h : s.index.encodeRow row = .ok key) : s.valuesAt key = row.map Value.canonical := by
  rw [valuesAt, Index.decodeRow_encodeRow hv h]
  rfl

theorem rowOf_encodeRow (hv : s.index.Valid) (htype : s.rowType = rowTypeOf s.index)
    {row : List Value} {key : Bytes} (h : s.index.encodeRow row = .ok key) :
    ∃ r, IndexScanCursor.rowOf s key = .ok r ∧ r.values = s.valuesAt key := by
  obtain ⟨hlength, hstorable, -⟩ := Index.encodeRow_eq_ok hv h
  obtain ⟨r, hr, hvalues⟩ := Row.ofValues_eq_ok (Index.check_rowTypeOf hlength hstorable.types)
  refine ⟨r, ?_, by rw [hvalues, valuesAt_of_encodeRow hv h]⟩
  rw [IndexScanCursor.rowOf, Index.decodeRow_encodeRow hv h, htype, ← hr]
  rfl

/-- Keys of rows are all read back. -/
theorem decodeRows_of_encodeRow (hv : s.index.Valid) (htype : s.rowType = rowTypeOf s.index)
    {entries : List Entry} (h : ∀ e ∈ entries, ∃ row, s.index.encodeRow row = .ok e.1) :
    (s.decodeRows entries).fate = .ok () ∧
      (s.decodeRows entries).rows.map Row.values = entries.map fun e => s.valuesAt e.1 := by
  induction entries with
  | nil => exact ⟨rfl, rfl⟩
  | cons e entries ih =>
      obtain ⟨row, hrow⟩ := h e List.mem_cons_self
      obtain ⟨r, hr, hvalues⟩ := rowOf_encodeRow hv htype hrow
      obtain ⟨hfate, hrows⟩ := ih fun e' he' => h e' (List.mem_cons_of_mem e he')
      rw [decodeRows]
      simp only [hr]
      refine ⟨hfate, ?_⟩
      rw [Listing.cons, List.map_cons, List.map_cons, hvalues, hrows]

/-- The order of rows along a direction of the index. -/
def Precedes (s : IndexScan) (a b : List Value) : Prop :=
  s.index.compareRows a b = match s.direction with
    | .forward => .lt
    | .backward => .gt

theorem precedes_valuesAt (hv : s.index.Valid) {a b : List Value} {j k : Bytes}
    (ha : s.index.encodeRow a = .ok j) (hb : s.index.encodeRow b = .ok k)
    (h : s.direction.Before j k) : s.Precedes (s.valuesAt j) (s.valuesAt k) := by
  rw [Precedes, valuesAt_of_encodeRow hv ha, valuesAt_of_encodeRow hv hb,
    Index.compareRows_map_canonical, ← Index.compare_keys hv ha hb]
  cases hdirection : s.direction with
  | forward =>
      rw [hdirection] at h
      exact Bytes.compare_eq_lt_iff.mpr h
  | backward =>
      rw [hdirection] at h
      exact Bytes.compare_eq_gt_iff.mpr h

theorem Precedes.ne {a b : List Value} (h : s.Precedes a b) : a ≠ b := by
  rintro rfl
  rw [Precedes, Index.compareRows_self] at h
  cases hdirection : s.direction <;> simp [hdirection] at h

variable {rows : List (List Value)} {store : Store} {env : Env}

theorem mem_entries_iff (hholds : s.index.Holds rows store) {found : Option KeyRange}
    {key : Bytes} :
    (∃ value, (key, value) ∈ s.entries store found) ↔
      ∃ row ∈ rows, s.index.encodeRow row = .ok key ∧
        ∃ r, found = some r ∧ r.contains key := by
  cases found with
  | none => simp [entries]
  | some range =>
      simp only [entries, Store.mem_visible_iff, exists_and_right, hholds.mem_iff key,
        Option.some.injEq, exists_eq_left']
      constructor
      · rintro ⟨⟨row, hmem, hrow⟩, hin⟩
        exact ⟨row, hmem, hrow, hin⟩
      · rintro ⟨row, hmem, hrow, hin⟩
        exact ⟨⟨row, hmem, hrow⟩, hin⟩

theorem pairwise_entries (s : IndexScan) (store : Store) (found : Option KeyRange) :
    (s.entries store found).Pairwise fun a b => s.direction.Before a.1 b.1 := by
  cases found with
  | none => exact List.Pairwise.nil
  | some range => exact Store.pairwise_visible store _ range s.direction

/-- The rows that are read back from entries in scan order are in the order of the scan. -/
theorem pairwise_decodeRows (hv : s.index.Valid) (htype : s.rowType = rowTypeOf s.index)
    (hholds : s.index.Holds rows store) (found : Option KeyRange) :
    ((s.decodeRows (s.entries store found)).rows.map Row.values).Pairwise s.Precedes := by
  have hentry (e : Entry) (he : e ∈ s.entries store found) :
      ∃ row, s.index.encodeRow row = .ok e.1 := by
    obtain ⟨row, -, hrow, -⟩ := (mem_entries_iff hholds).mp ⟨e.2, he⟩
    exact ⟨row, hrow⟩
  obtain ⟨-, hrows⟩ := decodeRows_of_encodeRow hv htype hentry
  rw [hrows, List.pairwise_map]
  refine (s.pairwise_entries store found).imp_of_mem fun {a b} ha hb hab => ?_
  obtain ⟨rowA, hrowA⟩ := hentry a ha
  obtain ⟨rowB, hrowB⟩ := hentry b hb
  exact precedes_valuesAt hv hrowA hrowB hab

/-- The listing of a scan: the rows that satisfy both bounds, in the order of their keys. -/
theorem listing_of_holds {ix : Index} {range : ScanRange} {ordering : List Bool}
    (hv : ix.Valid) (hbuild : build ix range ordering = .ok s)
    (hencodes : s.Encodes env) (hholds : ix.Holds rows store) :
    ∃ l, s.listing store env = .ok l ∧ l.fate = .ok () ∧
      (∀ values, values ∈ l.rows.map Row.values ↔
        ∃ row ∈ rows, s.Admits env row ∧ values = row.map Value.canonical) ∧
      (l.rows.map Row.values).Pairwise s.Precedes := by
  obtain ⟨found, hfound, hcontains⟩ := keyRange_contains_iff hv hbuild hencodes
  obtain ⟨rfl, -, htype, -⟩ := build_eq_ok hbuild
  have hentry (e : Entry) (he : e ∈ s.entries store found) :
      ∃ row ∈ rows, s.index.encodeRow row = .ok e.1 ∧ s.Admits env row := by
    obtain ⟨row, hmem, hrow, hin⟩ := (mem_entries_iff hholds).mp ⟨e.2, he⟩
    exact ⟨row, hmem, hrow, (hcontains row e.1 hrow).mp hin⟩
  obtain ⟨hfate, hrows⟩ := decodeRows_of_encodeRow hv htype fun e he => by
    obtain ⟨row, -, hrow, -⟩ := hentry e he
    exact ⟨row, hrow⟩
  refine ⟨s.decodeRows (s.entries store found), by rw [listing, hfound]; rfl, hfate, ?_,
    pairwise_decodeRows hv htype hholds found⟩
  intro values
  rw [hrows, List.mem_map]
  constructor
  · rintro ⟨e, he, rfl⟩
    obtain ⟨row, hmem, hrow, hadmits⟩ := hentry e he
    exact ⟨row, hmem, hadmits, valuesAt_of_encodeRow hv hrow⟩
  · rintro ⟨row, hmem, hadmits, rfl⟩
    obtain ⟨key, hkey⟩ := hholds.encodes row hmem
    have hin := (hcontains row key hkey).mpr hadmits
    obtain ⟨value, he⟩ := (mem_entries_iff hholds).mpr ⟨row, hmem, hkey, hin⟩
    exact ⟨(key, value), he, valuesAt_of_encodeRow hv hkey⟩

end IndexScan

/-- Draining a scan of an index that holds `rows` returns the rows that satisfy both bounds,
each exactly once and in the order of their stored columns, or in the reverse order if this
is requested. -/
theorem IndexScanCursor.drain_returns_admitted {d : Index.Draft} {ix : Index}
    (hdraft : d.build = .ok ix) (htable : Layout.ZeroFree ix.table)
    (hname : Layout.ZeroFree ix.name) {rows : List (List Value)} {store : Store}
    (hholds : ix.Holds rows store) {range : ScanRange} {ordering : List Bool}
    {scan : IndexScan} (hscan : IndexScan.build ix range ordering = .ok scan) {env : Env}
    (hencodes : scan.Encodes env) {ctx : Context} {w : World} (hcalm : Calm ctx store w)
    {source : BindingSource} {s : State} (hidle : Leaf.Idle source (some env) s) :
    ∃ opened w', openRun scan ctx s w = ⟨.ok (), opened, w'⟩ ∧
      ∃ out last, (machine scan).drain ctx opened w' = (out, last) ∧
        last.result = .ok () ∧
        (∀ values, values ∈ out.map Row.values ↔
          ∃ row ∈ rows, scan.Admits env row ∧ values = row.map Value.canonical) ∧
        (out.map Row.values).Nodup ∧
        (out.map Row.values).Pairwise fun a b =>
          ix.compareRows a b = if ix.Follows ordering then .lt else .gt := by
  have hv := Index.valid_of_build hdraft
  obtain ⟨l, hlisting, hfate, hmem, hpairs⟩ := IndexScan.listing_of_holds hv hscan hencodes hholds
  obtain ⟨rfl, -, -, hdirection, -⟩ := IndexScan.build_eq_ok hscan
  have hopens := opens (Index.zeroFree_storageTable htable hname) ctx store hidle hcalm
  rw [hlisting] at hopens
  obtain ⟨opened, w', hopened, hhands, hcalm'⟩ := hopens
  obtain ⟨s', w'', hdrain, -, -⟩ := hhands.drain hcalm'
  refine ⟨opened, w', hopened, l.rows, _, hdrain, hfate, hmem, ?_, ?_⟩
  · exact hpairs.imp fun h => h.ne
  · refine hpairs.imp fun {a b} h => ?_
    rw [IndexScan.Precedes, IndexScan.scanDirection_eq_ok hdirection] at h
    rw [h]
    cases scan.index.Follows ordering <;> rfl

/-- The scan of a descending column from three on, in ascending order. -/
theorem IndexScanCursor.drain_returns_admitted_from_three :
    let ix : Index := ⟨"t", "i", [⟨"a", .int, false, .declared⟩], 1, false, none⟩
    let scan : IndexScan := ⟨ix, ⟨some ⟨[.literal (.int 3)], true⟩, none⟩, .backward, true,
      ⟨[.int], some (.index "t" "i")⟩⟩
    let store := ((Store.empty.insert (Layout.storedKey "t.i" (Key.encode true (.int 2))) [])
      |>.insert (Layout.storedKey "t.i" (Key.encode true (.int 3))) []).insert
        (Layout.storedKey "t.i" (Key.encode true (.int 7))) []
    let s : State := ⟨(CursorBase.start "IndexScan").bind (some .root), .ofEnv .root, none⟩
    let made := (World.ofEngine ⟨store, [], 0⟩).newContext {}
    ∃ opened w', openRun scan made.1 s made.2 = ⟨.ok (), opened, w'⟩ ∧
      ∃ out last, (machine scan).drain made.1 opened w' = (out, last) ∧
        last.result = .ok () ∧
        (∀ values, values ∈ out.map Row.values ↔
          ∃ row ∈ [[Value.int 7], [.int 3], [.int 2]], scan.Admits .root row ∧
            values = row.map Value.canonical) ∧
        (out.map Row.values).Nodup ∧
        (out.map Row.values).Pairwise fun a b =>
          ix.compareRows a b = if ix.Follows [true] then .lt else .gt := by
  intro ix scan store s made
  have hencodes : scan.Encodes .root := by
    intro b hb
    obtain rfl : b = ⟨[.literal (.int 3)], true⟩ := by simpa [ScanRange.bounds, scan] using hb
    exact ⟨[.int 3], Key.encode true (.int 3), rfl, rfl⟩
  have hholds : ix.Holds [[.int 7], [.int 3], [.int 2]] store :=
    (((Index.holds_empty ix).insert rfl []).insert rfl []).insert rfl []
  let draft : Index.Draft :=
    { table := "t", name := "i", columns := [⟨"a", .int, false, .declared⟩] }
  have hdraft : draft.build = .ok ix := rfl
  have hscan : IndexScan.build ix ⟨some ⟨[.literal (.int 3)], true⟩, none⟩ [true] = .ok scan :=
    rfl
  have hcalm : Calm made.1 store made.2 := ⟨rfl, rfl, rfl⟩
  have hidle : Leaf.Idle (.ofEnv .root) (some .root) s := ⟨rfl, rfl, rfl⟩
  exact drain_returns_admitted hdraft (by decide +kernel) (by decide +kernel) hholds hscan
    hencodes hcalm hidle

end OrderedQuery
