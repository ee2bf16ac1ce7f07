import OrderedQuery.Plan.Execute
import OrderedQuery.Proofs.Cursor.Groups
import OrderedQuery.Proofs.Cursor.Sorted
import OrderedQuery.Proofs.Cursor.StoredRows

/-!
# Executing plans without parallel maps

The cursor of such a plan hands out the listing of the plan, by induction on the plan, and
executing the plan returns all rows of the listing or the error that ends it.
-/

namespace OrderedQuery

namespace Machine

variable {σ : Type} {m : Machine σ} {ctx : Context} {store : Store} {Live Idle : Standing σ}
  {listing : Env → Except QueryError Listing}

/-- The rows of a run are collected and counted. -/
theorem Hands.collect {Keeps : σ → Prop} {fate : Except QueryError Unit} {rows : List Row}
    {s : σ} (h : m.Hands ctx store Keeps fate rows s) {w : World} (hw : Calm ctx store w) :
    ∃ s' w', m.collect ctx s w = ⟨fate.map fun _ => rows, s', w'⟩ ∧ Keeps s' ∧
      Calm ctx store w' := by
  obtain ⟨s', w', hdrain, hkeeps, hw'⟩ := h.drain hw
  rw [Machine.collect, hdrain]
  cases fate with
  | error e => exact ⟨s', w', rfl, hkeeps, hw'⟩
  | ok u => exact ⟨s', _, rfl, hkeeps, hw'.silent, hw'.live, hw'.view⟩

/-- One run in one environment. -/
theorem runAll_eq (hconduct : m.Conduct ctx Live Idle)
    (hopens : m.Opens ctx store Live Idle listing) (env : Env) {w : World}
    (hw : Calm ctx store w) :
    match listing env >>= Listing.outcome with
    | .error e => ∃ s' w', m.runAll 1 ctx (m.fresh (.ofEnv env)) w = ⟨.error e, s', w'⟩
    | .ok rows => ∃ s' w', m.runAll 1 ctx (m.fresh (.ofEnv env)) w = ⟨.ok rows, s', w'⟩ ∧
        Idle (.single env true false) none s' ∧ Calm ctx store w' := by
  have hfirst : (BindingSource.ofEnv env).openUp.take =
      (.ok (some env), .single env true false) := rfl
  have hlast : (BindingSource.single env true false).take =
      (.ok none, .single env true false) := rfl
  obtain ⟨s₁, hopened, hidle₁⟩ := hconduct.openBindings (hconduct.fresh (.ofEnv env)) w
  obtain ⟨s₂, hmoved, hidle₂⟩ := hconduct.nextBindings hidle₁ hfirst w
  have hrun := hopens hidle₂ hw
  rw [runAll, hopened]
  simp only [runEach, hmoved]
  cases hlisting : listing env with
  | error e =>
      rw [hlisting] at hrun
      obtain ⟨s₃, w₃, hfailed⟩ := hrun
      exact ⟨s₃, w₃, by simp only [hfailed]⟩
  | ok l =>
      rw [hlisting] at hrun
      obtain ⟨s₃, w₃, hopenedRun, hhands, hw₃⟩ := hrun
      obtain ⟨s₄, w₄, hcollect, hlive, hw₄⟩ := hhands.collect hw₃
      obtain ⟨rows, fate⟩ := l
      simp only [hopenedRun, hcollect]
      cases fate with
      | error e => exact ⟨s₄, w₄, rfl⟩
      | ok u =>
          obtain ⟨s₅, hclosed, hidle₅⟩ := hconduct.closeRun hlive w₄
          obtain ⟨s₆, hended, hidle₆⟩ := hconduct.nextBindings hidle₅ hlast w₄
          refine ⟨s₆, w₄, ?_, hidle₆, hw₄⟩
          simp only [Except.map, hclosed, hended, List.append_nil]

end Machine

namespace Plan

section

variable {p : Plan} {ctx : Context} {store : Store} {Live Idle : Standing p.State}
  {listing : Env → Except QueryError Listing}

/-- A plan whose cursor hands out a listing ends as the listing does.  Unless that is an error,
the world is as calm as before. -/
theorem execute_cases (hconduct : p.cursor.Conduct ctx Live Idle)
    (hopens : p.cursor.Opens ctx store Live Idle listing) (env : Env) {w : World}
    (hw : Calm ctx store w) :
    match listing env >>= Listing.outcome with
    | .error e => (p.execute ctx env w).1 = .error e
    | .ok rows => ∃ w', p.execute ctx env w = (.ok rows, w') ∧ Calm ctx store w' := by
  have hrun := p.cursor.runAll_eq hconduct hopens env hw
  rw [execute, executeWith]
  have hsize : (BindingSource.ofEnv env).size = 1 := rfl
  rw [hsize]
  cases houtcome : listing env >>= Listing.outcome with
  | error e =>
      rw [houtcome] at hrun
      obtain ⟨s', w', hfailed⟩ := hrun
      simp only [hfailed]
  | ok rows =>
      rw [houtcome] at hrun
      obtain ⟨s', w', hdone, hidle, hw'⟩ := hrun
      obtain ⟨s₁, hclosed, hidle₁⟩ := hconduct.closeRun (hconduct.live_of_idle hidle) w'
      obtain ⟨s₂, hunbound, hidle₂⟩ := hconduct.closeBindings hidle₁ w'
      obtain ⟨s₃, hdestroyed⟩ := hconduct.destroy hidle₂ w'
      refine ⟨w', ?_, hw'⟩
      simp only [hdone, Machine.closeTop, hclosed, hunbound, hdestroyed, firstError]

/-- Executing a plan whose cursor hands out a listing. -/
theorem execute_eq (hconduct : p.cursor.Conduct ctx Live Idle)
    (hopens : p.cursor.Opens ctx store Live Idle listing) (env : Env) {w : World}
    (hw : Calm ctx store w) :
    (p.execute ctx env w).1 = listing env >>= Listing.outcome := by
  have hcases := execute_cases hconduct hopens env hw
  cases houtcome : listing env >>= Listing.outcome with
  | error e =>
      rw [houtcome] at hcases
      exact hcases
  | ok rows =>
      rw [houtcome] at hcases
      obtain ⟨w', hdone, -⟩ := hcases
      rw [hdone]

/-- Executing a plan whose cursor hands out a listing disturbs nothing. -/
theorem calm_execute (hconduct : p.cursor.Conduct ctx Live Idle)
    (hopens : p.cursor.Opens ctx store Live Idle listing) {env : Env} {w : World}
    (hw : Calm ctx store w) {rows : List Row} (h : (p.execute ctx env w).1 = .ok rows) :
    Calm ctx store (p.execute ctx env w).2 := by
  have hcases := execute_cases hconduct hopens env hw
  rw [← execute_eq hconduct hopens env hw, h] at hcases
  obtain ⟨w', hdone, hw'⟩ := hcases
  rwa [hdone]

end

/-- Plans as they are put together, without parallel maps and over indexes whose names hold
no zero byte. -/
inductive Built (registry : Registry) : Plan → Prop where
  | values {type : RowType} {rows : List Row} {p : Plan} (h : ofRows type rows = .ok p) :
      Built registry p
  | scan {ix : Index} {range : ScanRange} {ordering : List Bool} {p : Plan}
      (htable : Layout.ZeroFree ix.table) (hname : Layout.ZeroFree ix.name)
      (h : ofScan ix range ordering = .ok p) : Built registry p
  | select {input : Plan} {predicate : Expr} {p : Plan} (hinput : Built registry input)
      (h : ofSelect input predicate = .ok p) : Built registry p
  | project {input : Plan} {exprs : List Expr} {p : Plan} (hinput : Built registry input)
      (h : ofProject input exprs = .ok p) : Built registry p
  | aggregate {input : Plan} {fields : Nat} {calls : List (String × Option Nat)} {p : Plan}
      (hinput : Built registry input) (h : ofAggregate registry input fields calls = .ok p) :
      Built registry p
  | sort {input : Plan} {s : Sorting} {p : Plan} (hinput : Built registry input)
      (h : ofSort input s = .ok p) : Built registry p

end Plan

theorem Listing.mem_pass {f : Row → Except QueryError (Option Row)} {ins : List Row}
    {fate : Except QueryError Unit} {out : Row} (h : out ∈ (pass f ins fate).rows) :
    ∃ row ∈ ins, f row = .ok (some out) := by
  induction ins with
  | nil => cases h
  | cons row ins ih =>
      have hlift (hrest : out ∈ (pass f ins fate).rows) :
          ∃ row' ∈ row :: ins, f row' = .ok (some out) := by
        obtain ⟨row', hmem, hrow'⟩ := ih hrest
        exact ⟨row', List.mem_cons_of_mem row hmem, hrow'⟩
      rw [pass] at h
      split at h
      · cases h
      · exact hlift h
      · rename_i found hfound
        rcases List.mem_cons.mp h with rfl | hrest
        · exact ⟨row, List.mem_cons_self, hfound⟩
        · exact hlift hrest

theorem Listing.mem_next {head : Except QueryError Row} {rest : Listing} {out : Row}
    (h : out ∈ (next head rest).rows) : head = .ok out ∨ out ∈ rest.rows := by
  cases head with
  | error e => cases h
  | ok row =>
      rcases List.mem_cons.mp h with rfl | hrest
      · exact .inl rfl
      · exact .inr hrest

theorem IndexScan.type_of_mem_decodeRows {s : IndexScan} {entries : List Entry} {row : Row}
    (h : row ∈ (s.decodeRows entries).rows) : row.type = s.rowType := by
  induction entries with
  | nil => cases h
  | cons e entries ih =>
      rw [decodeRows] at h
      split at h
      · cases h
      · rename_i found hfound
        rcases List.mem_cons.mp h with rfl | hrest
        · obtain ⟨values, -, hvalues⟩ := Except.bind_eq_ok_iff.mp hfound
          exact Row.type_of_ofValues hvalues
        · exact ih hrest

theorem Grouping.type_of_mem_listing {g : Grouping} {fate : Except QueryError Unit}
    {groups : List (List Row)} {row : Row} (h : row ∈ (g.listing fate groups).rows) :
    row.type = g.rowType := by
  match groups with
  | [] => cases h
  | [group] =>
      rcases Listing.mem_next h with hrow | hrest
      · obtain ⟨slots, -, hrow⟩ := Except.bind_eq_ok_iff.mp hrow
        obtain ⟨-, -, hrow⟩ := Except.bind_eq_ok_iff.mp hrow
        exact Row.type_of_ofValues hrow
      · cases hrest
  | group :: following :: rest =>
      rcases Listing.mem_next h with hrow | hrest
      · obtain ⟨out, hsummary, hrow⟩ := Except.bind_eq_ok_iff.mp hrow
        obtain ⟨-, -, hsame⟩ := Except.bind_eq_ok_iff.mp hrow
        obtain rfl := Except.ok.inj hsame
        obtain ⟨slots, -, hrow⟩ := Except.bind_eq_ok_iff.mp hsummary
        exact Row.type_of_ofValues hrow
      · exact type_of_mem_listing hrest

theorem Sorting.mem_of_mem_firstRows {s : Sorting} {rows : List Row} {row : Row}
    (h : row ∈ s.firstRows rows) : row ∈ rows := by
  have hsorted : ∀ row', row' ∈ sortBy s.compare rows → row' ∈ rows := by
    intro row' hrow'
    exact (List.mergeSort_perm rows _).mem_iff.mp hrow'
  have hretained := List.mem_of_mem_take h
  cases hpolicy : s.policy with
  | preserve =>
      rw [hpolicy] at hretained
      exact hsorted row hretained
  | suppress =>
      rw [hpolicy] at hretained
      exact hsorted row ((List.destutter_sublist _ _).mem hretained)

namespace Plan

theorem ofRows_eq_ok {type : RowType} {rows : List Row} {p : Plan}
    (h : ofRows type rows = .ok p) :
    p = values type rows ∧ ∀ row ∈ rows, row.type.fields = type.fields := by
  have hcheck (rows : List Row) (i : Nat) (h : checkRows type i rows = .ok ()) :
      ∀ row ∈ rows, row.type.fields = type.fields := by
    induction rows generalizing i with
    | nil => intro row hrow; cases hrow
    | cons r rows ih =>
        rw [checkRows] at h
        split at h
        · rename_i hr
          intro row hrow
          rcases List.mem_cons.mp hrow with rfl | hmem
          · exact of_decide_eq_true hr
          · exact ih (i + 1) h row hmem
        · cases h
  obtain ⟨⟨⟩, hrows, hp⟩ := Except.bind_eq_ok_iff.mp h
  exact ⟨(Except.ok.inj hp).symm, hcheck rows 0 hrows⟩

theorem ofScan_eq_ok {ix : Index} {range : ScanRange} {ordering : List Bool} {p : Plan}
    (h : ofScan ix range ordering = .ok p) :
    ∃ s, IndexScan.build ix range ordering = .ok s ∧ p = scan s := by
  obtain ⟨s, hbuild, h⟩ := Except.bind_eq_ok_iff.mp h
  obtain ⟨⟨⟩, -, hp⟩ := Except.bind_eq_ok_iff.mp h
  exact ⟨s, hbuild, (Except.ok.inj hp).symm⟩

theorem ofSelect_eq_ok {input : Plan} {predicate : Expr} {p : Plan}
    (h : ofSelect input predicate = .ok p) : p = select input predicate := by
  obtain ⟨⟨⟩, -, h⟩ := Except.bind_eq_ok_iff.mp h
  obtain ⟨type, -, h⟩ := Except.bind_eq_ok_iff.mp h
  split at h
  · exact (Except.ok.inj h).symm
  · cases h

theorem ofProject_eq_ok {input : Plan} {exprs : List Expr} {p : Plan}
    (h : ofProject input exprs = .ok p) : ∃ q, p = project input q := by
  obtain ⟨⟨⟩, -, h⟩ := Except.bind_eq_ok_iff.mp h
  obtain ⟨q, -, h⟩ := Except.bind_eq_ok_iff.mp h
  exact ⟨q, (Except.ok.inj h).symm⟩

theorem ofAggregate_eq_ok {registry : Registry} {input : Plan} {fields : Nat}
    {calls : List (String × Option Nat)} {p : Plan}
    (h : ofAggregate registry input fields calls = .ok p) : ∃ g, p = aggregate input g := by
  obtain ⟨g, -, h⟩ := Except.bind_eq_ok_iff.mp h
  exact ⟨g, (Except.ok.inj h).symm⟩

theorem ofMap_eq_ok {input : Plan} {m : Partitioning} {p : Plan} (h : ofMap input m = .ok p) :
    p = map input m := by
  rw [ofMap] at h
  split at h
  · cases h
  · split at h
    · cases h
    · split at h
      · exact (Except.ok.inj h).symm
      · cases h

/-- An accepted sort has keys among the fields of its input. -/
theorem ofSort_eq_ok {input : Plan} {s : Sorting} {p : Plan} (h : ofSort input s = .ok p) :
    p = sort input s ∧ ∀ k ∈ s.keys, k.field < input.rowType.fields.length := by
  obtain ⟨s', hbuild, h⟩ := Except.bind_eq_ok_iff.mp h
  rw [Sorting.build] at hbuild
  split at hbuild
  · cases hbuild
  · rename_i hnone
    obtain rfl := Except.ok.inj hbuild
    refine ⟨(Except.ok.inj h).symm, ?_⟩
    intro k hk
    have hfield := List.find?_eq_none.mp hnone k hk
    rw [decide_eq_true_eq] at hfield
    exact Nat.not_le.mp hfield

/-- The rows of a plan have fields of the types the plan announces. -/
theorem Built.fields_of_mem {registry : Registry} {p : Plan} (hp : Built registry p)
    {store : Store} {allowed : Nat} {env : Env} {l : Listing}
    (h : p.listing store allowed env = .ok l) : ∀ row ∈ l.rows,
      row.type.fields = p.rowType.fields := by
  induction hp generalizing l with
  | values hbuild =>
      obtain ⟨rfl, hfields⟩ := ofRows_eq_ok hbuild
      obtain rfl := Except.ok.inj h
      exact hfields
  | scan htable hname hbuild =>
      obtain ⟨s, -, rfl⟩ := ofScan_eq_ok hbuild
      obtain ⟨found, -, rfl⟩ := Except.map_eq_ok_iff.mp h
      intro row hrow
      rw [IndexScan.type_of_mem_decodeRows hrow]
      rfl
  | select hinput hbuild ih =>
      obtain rfl := ofSelect_eq_ok hbuild
      obtain ⟨ins, hins, rfl⟩ := Except.map_eq_ok_iff.mp h
      intro row hrow
      obtain ⟨row', hmem, hkeep⟩ := Listing.mem_pass hrow
      rw [SelectCursor.eq_of_keep_eq_some hkeep]
      exact ih hins row' hmem
  | project hinput hbuild ih =>
      obtain ⟨q, rfl⟩ := ofProject_eq_ok hbuild
      obtain ⟨ins, hins, rfl⟩ := Except.map_eq_ok_iff.mp h
      intro row hrow
      obtain ⟨row', hmem, happly⟩ := Listing.mem_pass hrow
      have hmap : (q.apply env row').map some = .ok (some row) := happly
      obtain ⟨out, hout, hsome⟩ := Except.map_eq_ok_iff.mp hmap
      obtain rfl := Option.some.inj hsome
      obtain ⟨values, -, hvalues⟩ := Except.bind_eq_ok_iff.mp hout
      rw [Row.type_of_ofValues hvalues]
      rfl
  | aggregate hinput hbuild ih =>
      obtain ⟨g, rfl⟩ := ofAggregate_eq_ok hbuild
      obtain ⟨ins, hins, rfl⟩ := Except.map_eq_ok_iff.mp h
      intro row hrow
      rw [Grouping.type_of_mem_listing hrow]
      rfl
  | sort hinput hbuild ih =>
      obtain ⟨rfl, -⟩ := ofSort_eq_ok hbuild
      obtain ⟨⟨⟩, -, h⟩ := Except.bind_eq_ok_iff.mp h
      obtain ⟨⟨rows, fate⟩, hins, h⟩ := Except.bind_eq_ok_iff.mp h
      obtain ⟨rows', houtcome, h⟩ := Except.bind_eq_ok_iff.mp h
      obtain rfl := Except.ok.inj h
      cases fate with
      | error e => cases houtcome
      | ok u =>
          obtain rfl := Except.ok.inj houtcome
          intro row hrow
          exact ih hins row (Sorting.mem_of_mem_firstRows hrow)

/-- The cursor of a plan hands out the listing of the plan. -/
theorem Built.opens {registry : Registry} {p : Plan} (hp : Built registry p) (ctx : Context)
    (store : Store) :
    ∃ Live Idle : Standing p.State, p.cursor.Conduct ctx Live Idle ∧
      p.cursor.Opens ctx store Live Idle
        fun env => p.listing store ctx.config.maxRowsInMemory env := by
  induction hp with
  | values hbuild =>
      obtain ⟨rfl, -⟩ := ofRows_eq_ok hbuild
      exact ⟨Leaf.Live, Leaf.Idle, ValuesCursor.conduct _ ctx, ValuesCursor.opens _ ctx store⟩
  | scan htable hname hbuild =>
      obtain ⟨s, hs, rfl⟩ := ofScan_eq_ok hbuild
      obtain ⟨rfl, -⟩ := IndexScan.build_eq_ok hs
      exact ⟨Leaf.Live, Leaf.Idle, IndexScanCursor.conduct s ctx,
        IndexScanCursor.opens (Index.zeroFree_storageTable htable hname) ctx store⟩
  | select hinput hbuild ih =>
      obtain rfl := ofSelect_eq_ok hbuild
      obtain ⟨Live, Idle, hconduct, hopens⟩ := ih
      exact ⟨_, _, SelectCursor.conduct hconduct _, SelectCursor.opens hopens _⟩
  | project hinput hbuild ih =>
      obtain ⟨q, rfl⟩ := ofProject_eq_ok hbuild
      obtain ⟨Live, Idle, hconduct, hopens⟩ := ih
      exact ⟨_, _, ProjectCursor.conduct hconduct q, ProjectCursor.opens hopens q⟩
  | aggregate hinput hbuild ih =>
      obtain ⟨g, rfl⟩ := ofAggregate_eq_ok hbuild
      obtain ⟨Live, Idle, hconduct, hopens⟩ := ih
      exact ⟨_, _, AggregateCursor.conduct hconduct g, AggregateCursor.opens hopens g⟩
  | sort hinput hbuild ih =>
      obtain ⟨rfl, hkeys⟩ := ofSort_eq_ok hbuild
      obtain ⟨Live, Idle, hconduct, hopens⟩ := ih
      refine ⟨_, _, SortCursor.conduct hconduct _, SortCursor.opens hopens ?_⟩
      intro env l hl row hrow k hk
      have hfields := hinput.fields_of_mem hl row hrow
      have hlength : k.field < row.values.length := by
        rw [row.length_values, hfields]
        exact hkeys k hk
      rw [Row.value?, List.getElem?_eq_getElem hlength]
      rfl

/-- Executing a plan while nothing is cancelled and the store does not change returns the
rows that the plan denotes, if no step fails, and otherwise the error of the first step that
fails as rows are pulled through the plan one at a time. -/
theorem execute_eq_listing {registry : Registry} {p : Plan} (hp : Built registry p)
    {ctx : Context} {store : Store} {w : World} (hw : Calm ctx store w) (env : Env) :
    (p.execute ctx env w).1 =
        p.listing store ctx.config.maxRowsInMemory env >>= Listing.outcome ∧
      ∀ rows, (p.execute ctx env w).1 = .ok rows ↔
        p.Denotes store ctx.config.maxRowsInMemory env rows := by
  obtain ⟨Live, Idle, hconduct, hopens⟩ := hp.opens ctx store
  have hexecute := execute_eq hconduct hopens env hw
  refine ⟨hexecute, ?_⟩
  intro rows
  rw [hexecute, ← listing_eq_ok_iff_denotes, Except.bind_eq_ok_iff]
  constructor
  · rintro ⟨⟨rows', fate⟩, hl, houtcome⟩
    obtain ⟨⟨⟩, rfl, rfl⟩ := Except.map_eq_ok_iff.mp houtcome
    exact hl
  · intro hl
    exact ⟨_, hl, rfl⟩

/-- The least of the numbers above one. -/
theorem execute_eq_listing_least :
    let type : RowType := .ofFields [.int]
    let rows : List Row := [⟨type, [.int 3], rfl⟩, ⟨type, [.int 1], rfl⟩, ⟨type, [.int 2], rfl⟩]
    let p : Plan := .sort
      (.select (.values type rows) (.compare .gt (.field 0) (.literal (.int 1))))
      ⟨[⟨0, true⟩], .preserve, 1⟩
    let made := (World.ofEngine .empty).newContext {}
    (p.execute made.1 .root made.2).1 =
        p.listing .empty made.1.config.maxRowsInMemory .root >>= Listing.outcome ∧
      ∀ rows, (p.execute made.1 .root made.2).1 = .ok rows ↔
        p.Denotes .empty made.1.config.maxRowsInMemory .root rows := by
  intro type rows p made
  have hvalues : ofRows type rows = .ok (.values type rows) := rfl
  have hselect : ofSelect (.values type rows) (.compare .gt (.field 0) (.literal (.int 1))) =
      .ok (.select (.values type rows) (.compare .gt (.field 0) (.literal (.int 1)))) := rfl
  have hsort : ofSort (.select (.values type rows)
      (.compare .gt (.field 0) (.literal (.int 1)))) ⟨[⟨0, true⟩], .preserve, 1⟩ = .ok p := rfl
  have hp : Built .builtins p := .sort (.select (.values hvalues) hselect) hsort
  have hcalm : Calm made.1 .empty made.2 := ⟨rfl, rfl, rfl⟩
  exact execute_eq_listing hp hcalm .root

end Plan
end OrderedQuery
