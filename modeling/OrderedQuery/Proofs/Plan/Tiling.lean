import OrderedQuery.Proofs.Plan.Pieces
import OrderedQuery.Proofs.Plan.Succeeding

/-!
# Parallel maps over the pieces of a range

A plan that scans the piece bound at a position returns the same rows, in some order, whether it
is executed once over a range or by a parallel map over pieces that lie one after the other in this
range.  Each row belongs to one piece, and so does each group of rows, since the rows of a group
share their first value.
-/

namespace OrderedQuery

open Partitioning (leads pieceRow)

namespace Partitioning

variable {ends : Nat → Int64} {n i j : Nat}

/-- Pieces that lie one after the other, between each end and the next. -/
def ofEnds (ends : Nat → Int64) (n position : Nat) : Partitioning :=
  ⟨(List.range n).map fun i => .row (pieceRow (ends i) (ends (i + 1))), position⟩

/-- The first value lies in piece `i`. -/
def leadsAt (ends : Nat → Int64) (i : Nat) (row : Row) : Bool :=
  leads (ends i) (ends (i + 1)) row.values

theorem ofEnds_getElem?_eq_some_iff {position : Nat} {b : Binding} :
    (ofEnds ends n position).partitions[i]? = some b ↔
      i < n ∧ b = .row (pieceRow (ends i) (ends (i + 1))) := by
  rw [ofEnds, List.getElem?_map, Option.map_eq_some_iff]
  constructor
  · rintro ⟨k, hk, rfl⟩
    obtain ⟨hi, rfl⟩ := List.getElem?_eq_some_iff.mp hk
    rw [List.length_range] at hi
    rw [List.getElem_range]
    exact ⟨hi, rfl⟩
  · rintro ⟨hi, rfl⟩
    exact ⟨i, List.getElem?_range hi, rfl⟩

theorem tiles_ofEnds (hascend : ∀ i < n, ends i ≤ ends (i + 1)) (position : Nat) :
    Tiles (ends 0) (ends n) (ofEnds ends n position).partitions := by
  have hlength : (ofEnds ends n position).partitions.length = n := by
    rw [ofEnds, List.length_map, List.length_range]
  refine ⟨ends, rfl, by rw [hlength], by rw [hlength]; rfl, ?_⟩
  rwa [hlength]

/-- Ends ascend. -/
theorem ends_le (hascend : ∀ i < n, ends i ≤ ends (i + 1)) (hij : i ≤ j) (hj : j ≤ n) :
    ends i ≤ ends j := by
  induction hij with
  | refl => exact Int64.le_refl _
  | step hij ih => exact Int64.le_trans (ih (Nat.le_of_lt hj)) (hascend _ hj)

/-- A row that lies in the range lies in one of its pieces. -/
theorem exists_unique_leadsAt (hascend : ∀ i < n, ends i ≤ ends (i + 1)) {row : Row}
    (h : leads (ends 0) (ends n) row.values) :
    ∃ i < n, leadsAt ends i row ∧ ∀ j < n, leadsAt ends j row → j = i := by
  obtain ⟨k, rest, hvalues⟩ := exists_of_leads h
  rw [hvalues, leads, Bool.and_eq_true, decide_eq_true_eq, decide_eq_true_eq] at h
  obtain ⟨i, a, b, hi, ha, hb, hunique⟩ := (tiles_ofEnds hascend 0).exists_unique_piece h.1 h.2
  obtain ⟨hlt, hpiece⟩ := ofEnds_getElem?_eq_some_iff.mp hi
  obtain ⟨rfl, rfl⟩ := pieceRow_inj.mp (Binding.row.inj hpiece)
  have hleads (j : Nat) : leadsAt ends j row ↔ ends j ≤ k ∧ k < ends (j + 1) := by
    rw [leadsAt, hvalues, leads, Bool.and_eq_true, decide_eq_true_eq, decide_eq_true_eq]
  refine ⟨i, hlt, (hleads i).mpr ⟨ha, hb⟩, ?_⟩
  intro j hj hleadsAt
  obtain ⟨hbelow, habove⟩ := (hleads j).mp hleadsAt
  exact hunique j _ _ (ofEnds_getElem?_eq_some_iff.mpr ⟨hj, rfl⟩) hbelow habove

/-- The rows of a range are those of its pieces. -/
theorem perm_flatMap_leadsAt (hascend : ∀ i < n, ends i ≤ ends (i + 1)) {rows : List Row}
    (h : ∀ row ∈ rows, leads (ends 0) (ends n) row.values) :
    rows.Perm ((List.range n).flatMap fun i => rows.filter (leadsAt ends i)) := by
  refine List.perm_flatMap_filter ?_ ?_
  · intro row hrow
    obtain ⟨i, hi, hleads, -⟩ := exists_unique_leadsAt hascend (h row hrow)
    exact ⟨i, hi, hleads⟩
  · intro row hrow i hi j hj hleads hleads'
    obtain ⟨k, -, -, hunique⟩ := exists_unique_leadsAt hascend (h row hrow)
    exact (hunique i hi hleads).trans (hunique j hj hleads').symm

end Partitioning

namespace Plan

variable {registry : Registry} {q input : Plan} {store : Store} {ctx : Context} {env : Env}
  {w : World} {rows ins : List Row} {ends : Nat → Int64} {n position : Nat}

/-- Executing a plan without parallel maps returns rows if the plan denotes them. -/
theorem Built.execute_eq_ok_iff (hq : Built registry q) (hw : Calm ctx store w) :
    (q.execute ctx env w).1 = .ok rows ↔
      q.Denotes store ctx.config.maxRowsInMemory env rows := by
  rw [hq.execute_eq_ofRun rfl hw, ← listing_eq_ok_iff_denotes]
  cases q.listing store ctx.config.maxRowsInMemory env with
  | error e => exact iff_of_false nofun nofun
  | ok l =>
      obtain ⟨found, fate⟩ := l
      cases fate with
      | error e => exact iff_of_false nofun nofun
      | ok u => simp [Listing.ofRun, Listing.outcome, Except.map]

/-- Groups over a piece are groups by one column or more of the rows in the piece. -/
theorem Tileable.of_aggregate {g : Grouping} (hp : Tileable registry position (.aggregate q g)) :
    Slices position q ∧ 1 ≤ g.fields ∧ g.fields ≤ q.rowType.arity := by
  cases hp with
  | slice h => exact absurd rfl h.ne_aggregate
  | aggregate hinput hfields h =>
      obtain ⟨g', hg, hplan⟩ := Except.bind_eq_ok_iff.mp h
      obtain ⟨rfl, rfl⟩ := Plan.aggregate.inj (Except.ok.inj hplan)
      obtain ⟨rfl, harity⟩ := Grouping.build_eq_ok hg
      exact ⟨hinput, hfields, harity⟩

/-- What a plan returns in piece `i`. -/
theorem Restricts.restrict_leadsAt {allowed : Nat}
    (h : Restricts store allowed env position (ends 0) (ends n) q rows)
    (hascend : ∀ i < n, ends i ≤ ends (i + 1)) {i : Nat} (hi : i < n) :
    q.Denotes store allowed (pieceEnv env position (ends i) (ends (i + 1)))
      (rows.filter (Partitioning.leadsAt ends i)) :=
  h.restrict _ _ (Partitioning.ends_le hascend (Nat.zero_le i) (Nat.le_of_lt hi))
    (Partitioning.ends_le hascend hi (Nat.le_refl n))

/-- A session that is in no transaction of its own sees the committed store. -/
theorem calm_of_quiet (hw : w.Quiet store ctx)
    (hsession : w.engine.inTransaction ctx.session = false) : Calm ctx store w where
  silent := hw.steady.silent
  live := hw.steady.live fun _ hf => hf
  view := by
    have hnone : w.engine.transaction? ctx.session = none :=
      Option.isNone_iff_eq_none.mp (Option.isSome_eq_false_iff.mp hsession)
    rw [Engine.view, hnone]
    exact hw.committed

end Plan

/-! ## Groups -/

namespace Grouping

variable {g : Grouping} {ends : Nat → Int64} {n : Nat} {ins outs group : List Row} {out row : Row}

/-- The rows of a group lie in one piece. -/
theorem exists_piece_of_group (hfields : 1 ≤ g.fields)
    (hascend : ∀ i < n, ends i ≤ ends (i + 1))
    (hleads : ∀ row ∈ ins, leads (ends 0) (ends n) row.values) (hrow : row ∈ ins) :
    ∃ i < n, ∀ j < n,
      (ins.filter (Partitioning.leadsAt ends j)).filter
          (fun other => sameKey (g.key other) (g.key row)) =
        if j = i then ins.filter fun other => sameKey (g.key other) (g.key row) else [] := by
  obtain ⟨i, hi, hlead, hunique⟩ := Partitioning.exists_unique_leadsAt hascend (hleads row hrow)
  refine ⟨i, hi, ?_⟩
  intro j hj
  have hsame : ∀ other ∈ ins, sameKey (g.key other) (g.key row) →
      Partitioning.leadsAt ends j other = Partitioning.leadsAt ends j row :=
    fun other hother h => leads_eq_of_sameKey hfields (hleads other hother) (hleads row hrow) h _ _
  rw [List.filter_filter]
  split
  · rename_i heq
    refine List.filter_congr ?_
    intro other hother
    rw [Bool.and_eq_left_iff_imp]
    intro h
    rw [hsame other hother h, heq]
    exact hlead
  · rename_i hne
    refine List.filter_eq_nil_iff.mpr ?_
    intro other hother h
    obtain ⟨hkey, hlead'⟩ := Bool.and_eq_true_iff.mp h
    rw [hsame other hother hkey] at hlead'
    exact hne (hunique j hj hlead')

/-- The row of a group has the key of the group. -/
theorem forall₂_keys (hlength : ∀ row ∈ ins, g.fields ≤ row.values.length)
    (hrows : List.Forall₂ (fun group out => g.summary group = .ok out) (g.groups ins) outs) :
    List.Forall₂ (fun group out => g.key out = g.keyOf group) (g.groups ins) outs := by
  have hgroups := (List.forall₂_and_left _ _).mpr
    ⟨fun group (hgroup : group ∈ g.groups ins) => hgroup, hrows⟩
  refine hgroups.imp ?_
  rintro group out ⟨hgroup, hsummary⟩
  obtain ⟨results, hout⟩ := values_of_summary hsummary
  cases group with
  | nil => exact absurd hgroup (List.nil_notMem_splitBy _ _)
  | cons first group =>
      have hfirst : (g.key first).length = g.fields :=
        List.length_take_of_le (hlength first (mem_of_mem_groups hgroup List.mem_cons_self))
      rw [key, hout, keyOf, List.take_left' hfirst]

/-- Of gathered rows, each key is the key of one row of a group. -/
theorem Gathers.countP_summaries (h : g.Gathers ins)
    (hlength : ∀ row ∈ ins, g.fields ≤ row.values.length)
    (hrows : List.Forall₂ (fun group out => g.summary group = .ok out) (g.groups ins) outs)
    (hrow : row ∈ ins) : (outs.countP fun out => sameKey (g.key out) (g.key row)) = 1 := by
  have hsame := List.rel_filter (p := fun group => sameKey (g.keyOf group) (g.key row))
    (q := fun out => sameKey (g.key out) (g.key row)) ?_ (forall₂_keys hlength hrows)
  · rw [List.countP_eq_length_filter, ← hsame.length_eq, ← List.countP_eq_length_filter]
    exact h.countP_groups hrow
  · intro group out hkey
    exact iff_of_eq (congrArg (fun key => sameKey key (g.key row) = true) hkey.symm)

end Grouping

namespace Plan

variable {registry : Registry} {input : Plan} {store : Store} {ctx : Context} {env : Env}
  {w : World} {rows : List Row} {ends : Nat → Int64} {n position : Nat}

/-- A parallel map over pieces that lie one after the other delivers the rows of executing its
input once over the whole range, each worker those in its piece.  If the input makes groups, the
rows of each group lie in one piece, and each key of a group is delivered once.  The map opens if
the system starts every thread, and then comes to its end if the engine refuses no transaction. -/
theorem map_ofEnds_delivers_range {s : ParallelCursor.State input.State}
    (hinput : Tileable registry position input) (hkeys : input.KeysOnly store)
    (hascend : ∀ i < n, ends i ≤ ends (i + 1)) (hw : w.Quiet store ctx)
    (hmode : ctx.config.mode = .readOnly)
    (hsession : w.engine.inTransaction ctx.session = false) (henv : s.base.env = some env)
    (hidle : s.base.state = .idle)
    (hwhole : (input.execute ctx (pieceEnv env position (ends 0) (ends n)) w).1 = .ok rows) :
    let parallel := map input (.ofEnds ends n position)
    let opened := parallel.cursor.openRun ctx s w
    let drained := fun fuel => parallel.cursor.drainWith ctx fuel opened.state opened.world
    ((∀ report, some report ∉ w.spawns) → opened.result = .ok ()) ∧
      (opened.result = .ok () → w.refusals = [] →
        ∃ limit, ∀ fuel, limit < fuel → (drained fuel).2.result = .ok ()) ∧
      ∀ fuel, (drained fuel).2.result = .ok () →
        (drained fuel).1.Perm rows ∧
        (∀ i < n,
          rowsFrom i (ParallelCursor.log input.cursor ctx fuel opened.state opened.world) =
            rows.filter fun row => leads (ends i) (ends (i + 1)) row.values) ∧
        ∀ q g, input = aggregate q g → ∃ ins,
          (q.execute ctx (pieceEnv env position (ends 0) (ends n)) w).1 = .ok ins ∧
          (∀ row ∈ ins, ∃ i < n, ∀ j < n, ∃ part,
            (q.execute ctx (pieceEnv env position (ends j) (ends (j + 1))) w).1 = .ok part ∧
            (part.filter fun other => Grouping.sameKey (g.key other) (g.key row)) =
              if j = i then ins.filter fun other => Grouping.sameKey (g.key other) (g.key row)
              else []) ∧
          (∀ row ∈ ins,
            ((drained fuel).1.countP fun out => Grouping.sameKey (g.key out) (g.key row)) = 1) ∧
          ∀ out ∈ (drained fuel).1, ∃ row ∈ ins, Grouping.sameKey (g.key out) (g.key row) := by
  intro parallel opened drained
  have hcalm : Calm ctx store w := calm_of_quiet hw hsession
  have hmeans := (hinput.built.execute_eq_ok_iff hcalm).mp hwhole
  have hrestricts := hinput.restricts hkeys hmeans
  have hparts : ∀ b ∈ (Partitioning.ofEnds ends n position).partitions, ∃ part,
      input.Denotes store ctx.config.maxRowsInMemory (env.fork.set position b) part := by
    intro b hb
    obtain ⟨i, hi⟩ := List.getElem?_of_mem hb
    obtain ⟨hlt, rfl⟩ := Partitioning.ofEnds_getElem?_eq_some_iff.mp hi
    exact ⟨_, hrestricts.restrict_leadsAt hascend hlt⟩
  refine ⟨map_opens hw henv hidle hmode,
    fun hopen hrefusals => map_succeeds hinput.built hw henv hopen hrefusals hparts, ?_⟩
  intro fuel hok
  have hopen := map_opened_of_drainWith hidle hok
  obtain ⟨hperm, hmeanings⟩ := map_delivers_meanings hinput.built hw henv hopen fuel hok
  have hworkers : ∀ i < n,
      rowsFrom i (ParallelCursor.log input.cursor ctx fuel opened.state opened.world) =
        rows.filter (Partitioning.leadsAt ends i) := by
    intro i hi
    exact hmeanings i _ _ (Partitioning.ofEnds_getElem?_eq_some_iff.mpr ⟨hi, rfl⟩)
      (hrestricts.restrict_leadsAt hascend hi)
  have hrows : (drained fuel).1.Perm rows := by
    have hlength : (Partitioning.ofEnds ends n position).partitions.length = n := by
      rw [Partitioning.ofEnds, List.length_map, List.length_range]
    rw [hlength, List.flatMap_congr fun i hi => hworkers i (List.mem_range.mp hi)] at hperm
    exact hperm.trans (Partitioning.perm_flatMap_leadsAt hascend hrestricts.leads).symm
  refine ⟨hrows, hworkers, ?_⟩
  rintro q g rfl
  obtain ⟨hq, hfields, harity⟩ := hinput.of_aggregate
  cases hmeans with
  | @aggregate _ _ ins _ hins hgroups =>
      obtain ⟨hpieces, scan, harranged⟩ := hq.restricts hkeys hins
      have hbuilt : Built registry q := hq.built
      have hlength : ∀ row ∈ ins, g.fields ≤ row.values.length := by
        intro row hrow
        rw [row.length_values,
          hbuilt.fields_of_mem (listing_eq_ok_iff_denotes.mpr hins) row hrow]
        exact harity
      refine ⟨ins, (hbuilt.execute_eq_ok_iff hcalm).mpr hins, ?_, ?_, ?_⟩
      · intro row hrow
        obtain ⟨i, hi, hpiece⟩ :=
          Grouping.exists_piece_of_group hfields hascend hpieces.leads hrow
        refine ⟨i, hi, ?_⟩
        intro j hj
        exact ⟨_, (hbuilt.execute_eq_ok_iff hcalm).mpr (hpieces.restrict_leadsAt hascend hj),
          hpiece j hj⟩
      · intro row hrow
        rw [hrows.countP_eq]
        exact (harranged.gathers g).countP_summaries hlength hgroups hrow
      · intro out hout
        obtain ⟨group, hgroup, hkey⟩ := exists_of_mem_forall₂
          (Grouping.forall₂_keys hlength hgroups) (hrows.mem_iff.mp hout)
        obtain ⟨row, hrow⟩ := List.exists_mem_of_ne_nil _ (List.ne_nil_of_mem_splitBy hgroup)
        refine ⟨row, Grouping.mem_of_mem_groups hgroup hrow, ?_⟩
        rw [hkey]
        exact Grouping.sameKey_keyOf hgroup hrow

/-- Groups of a descending column with a null key, over pieces one of which is empty. -/
theorem map_ofEnds_delivers_range_counts :
    let ix : Index := ⟨"t", "i",
      [⟨"a", .int, false, .declared⟩, ⟨"b", .int, true, .declared⟩], 2, false, none⟩
    let key := fun a b => Layout.storedKey "t.i" (Key.encode true a ++ Key.encode false b)
    let store := (((Store.empty.insert (key .null (.int 1)) []).insert (key (.int 1) (.int 1)) []
      |>.insert (key (.int 1) (.int 2)) []).insert (key (.int 3) (.int 1)) [])
    let scan : IndexScan := ⟨ix, .ofPiece 0, .forward, true, IndexScan.rowTypeOf ix⟩
    let chosen : Plan := .select (.scan scan) (.compare .lt (.field 1) (.literal (.int 9)))
    let pair : RowType := .ofFields [.int, .int]
    let input : Plan := .aggregate chosen ⟨1, [⟨"count", none, .count⟩], pair⟩
    let ends : Nat → Int64 := fun i => [1, 3, 3].getD i 6
    let parallel : Plan := .map input (.ofEnds ends 3 0)
    let made := (World.ofEngine ⟨store, [], 0⟩).newContext {}
    let w := { made.2 with schedule := [2, 2, 1] }
    let s : ParallelCursor.State input.State :=
      ⟨⟨"MapParallel", .idle, some .root, 0⟩, .single .root true false, none⟩
    let opened := parallel.cursor.openRun made.1 s w
    let drained := parallel.cursor.drainWith made.1 3 opened.state opened.world
    drained.2.result = .ok () ∧
      (drained.1.map Row.values).Perm [[.int 3, .int 1], [.int 1, .int 2]] := by
  intro ix key store scan chosen pair input ends parallel made w s opened drained
  have hvalues : (input.execute made.1 (pieceEnv .root 0 (ends 0) (ends 3)) w).1.map
      (List.map Row.values) = .ok [[.int 3, .int 1], [.int 1, .int 2]] := by
    decide +kernel
  obtain ⟨rows, hwhole, hrows⟩ := Except.map_eq_ok_iff.mp hvalues
  have hix : Index.Draft.build ⟨"t", "i", ix.columns, false, none⟩ = .ok ix := rfl
  have hscan : ofScan ix (.ofPiece 0) [] = .ok (.scan scan) := rfl
  have hchosen : ofSelect (.scan scan) (.compare .lt (.field 1) (.literal (.int 9))) =
      .ok chosen := rfl
  have hcount : Registry.builtins.get "count" = .ok .count :=
    Registry.get_of_mem_builtins List.mem_cons_self
  have haggregate : ofAggregate .builtins chosen 1 [("count", none)] = .ok input := by
    unfold ofAggregate Grouping.build Grouping.resolve
    rw [hcount]
    rfl
  have hinput : Tileable .builtins 0 input :=
    .aggregate (.select (.scan hix (by decide +kernel) (by decide +kernel) rfl rfl rfl hscan)
      (by decide) hchosen) (Nat.le_refl 1) haggregate
  have hkeys : input.KeysOnly store := by
    have hholds : ix.Holds [[.int 3, .int 1], [.int 1, .int 2], [.int 1, .int 1],
        [.null, .int 1]] store :=
      ((((Index.holds_empty ix).insert rfl []).insert rfl []).insert rfl []).insert rfl []
    exact hholds.keysOnly
  have hw : World.Quiet store made.1 w :=
    ⟨⟨⟨List.forall_mem_nil _, List.forall_mem_nil _⟩, rfl, by decide⟩, rfl, by rintro ⟨⟩⟩
  have hascend : ∀ i < 3, ends i ≤ ends (i + 1) := by decide
  obtain ⟨-, -, hdelivers⟩ :=
    map_ofEnds_delivers_range (s := s) hinput hkeys hascend hw rfl rfl rfl rfl hwhole
  have hok : drained.2.result = .ok () := by decide +kernel
  refine ⟨hok, ?_⟩
  rw [← hrows]
  exact (hdelivers 3 hok).1.map Row.values

end Plan
end OrderedQuery
