import OrderedQuery.Proofs.Binding.Agreement
import OrderedQuery.Proofs.Cursor.Parallel.Terms
import OrderedQuery.Proofs.Cursor.Protocol
import OrderedQuery.Proofs.Plan.TypedGroups
import OrderedQuery.Proofs.Query.EveryStore

/-!
# Accepted plans do not go structurally wrong

What is checked when a plan is put together implies every check at run time.  If the tables of its
indexes hold keys of rows only, and each binding is what the expressions that read it expect, then
every row that any cursor of the tree returns is described by the row type of its plan, and no call
fails because types, rows, bounds or bindings do not fit together.
-/

namespace OrderedQuery

/-- The table of an index holds nothing but keys of rows of the index. -/
def Index.KeysOnly (ix : Index) (store : Store) : Prop :=
  ∀ key value, (Layout.storedKey ix.storageTable key, value) ∈ store.entries →
    ∃ row, ix.encodeRow row = .ok key

theorem Index.Holds.keysOnly {ix : Index} {rows : List (List Value)} {store : Store}
    (h : ix.Holds rows store) : ix.KeysOnly store := by
  intro key value hmem
  obtain ⟨row, -, hrow⟩ := (h.mem_iff key).mp ⟨value, hmem⟩
  exact ⟨row, hrow⟩

theorem Index.KeysOnly.provides {ix : Index} {store : Store} (h : ix.KeysOnly store)
    (hfree : Layout.ZeroFree ix.storageTable) :
    store.Provides ix.storageTable fun key => ∃ row, ix.encodeRow row = .ok key := by
  intro range resume direction limit e he
  rw [Store.scan_eq_take hfree] at he
  exact h e.1 e.2 (Store.mem_visible_iff.mp (List.mem_of_mem_take he)).1

namespace Plan

/-- The tables of the indexes of a plan hold nothing but keys of rows. -/
def KeysOnly : Plan → Store → Prop
  | values .., _ => True
  | scan s, store => s.index.KeysOnly store
  | select input _, store | project input _, store | aggregate input _, store
  | sort input _, store | map input _, store => input.KeysOnly store

/-- What a plan expects of its caller at the positions it reads.  A parallel map binds its own
position. -/
def demands : Plan → List (Nat × Demand)
  | values .. => []
  | scan s => s.range.exprs.flatMap Expr.demands
  | select input predicate => predicate.demands ++ input.demands
  | project input p => p.exprs.flatMap Expr.demands ++ input.demands
  | aggregate input _ => input.demands
  | sort input _ => input.demands
  | map input m => input.demands.filter fun d => d.1 != m.position

/-- Each partition of a parallel map is what the plan below it expects at the position of the
map. -/
def PartitionsMeet : Plan → Prop
  | values .. | scan _ => True
  | select input _ | project input _ | aggregate input _ | sort input _ => input.PartitionsMeet
  | map input m =>
      (∀ d ∈ input.demands, d.1 = m.position → ∀ b ∈ m.partitions, b.Meets d.2) ∧
        input.PartitionsMeet

/-- Plans as they are put together, with the functions that are there from the start and over
indexes that were built and whose names hold no zero byte. -/
inductive Accepted : Plan → Prop where
  | values {type : RowType} {rows : List Row} {p : Plan} (h : ofRows type rows = .ok p) :
      Accepted p
  | scan {d : Index.Draft} {ix : Index} {range : ScanRange} {ordering : List Bool} {p : Plan}
      (hix : d.build = .ok ix) (htable : Layout.ZeroFree ix.table)
      (hname : Layout.ZeroFree ix.name) (h : ofScan ix range ordering = .ok p) : Accepted p
  | select {input : Plan} {predicate : Expr} {p : Plan} (hinput : Accepted input)
      (h : ofSelect input predicate = .ok p) : Accepted p
  | project {input : Plan} {exprs : List Expr} {p : Plan} (hinput : Accepted input)
      (h : ofProject input exprs = .ok p) : Accepted p
  | aggregate {input : Plan} {fields : Nat} {calls : List (String × Option Nat)} {p : Plan}
      (hinput : Accepted input) (h : ofAggregate .builtins input fields calls = .ok p) :
      Accepted p
  | sort {input : Plan} {s : Sorting} {p : Plan} (hinput : Accepted input)
      (h : ofSort input s = .ok p) : Accepted p
  | map {input : Plan} {m : Partitioning} {p : Plan} (hinput : Accepted input)
      (h : ofMap input m = .ok p) : Accepted p

/-- What the operators of a plan compute from rows of their inputs and from environments that
supply what they expect is right. -/
def Coherent : Plan → Prop
  | values type rows => ∀ row ∈ rows, row.Fits type
  | scan s =>
      Layout.ZeroFree s.index.storageTable ∧
      (∀ env : Env, env.Supplies (s.range.exprs.flatMap Expr.demands) →
        FailsWith QueryError.Circumstantial (s.keyRange env)) ∧
      ∀ key, (∃ row, s.index.encodeRow row = .ok key) →
        Yields QueryError.Circumstantial (Row.Fits s.rowType) (IndexScanCursor.rowOf s key)
  | select input predicate => predicate.type input.rowType = .ok .bool ∧ input.Coherent
  | project input p => (∃ exprs, Projection.build input.rowType exprs = .ok p) ∧ input.Coherent
  | aggregate input g => g.Typed input.rowType ∧ input.Coherent
  | sort input _ => input.Coherent
  | map input m =>
      (∀ d ∈ input.demands, d.1 = m.position → ∀ b ∈ m.partitions, b.Meets d.2) ∧ input.Coherent

theorem Accepted.coherent {p : Plan} (hp : p.Accepted) (hmeet : p.PartitionsMeet) : p.Coherent := by
  induction hp with
  | values h =>
      obtain ⟨rfl, hfields⟩ := ofRows_eq_ok h
      exact hfields
  | scan hix htable hname h =>
      obtain ⟨s, hs, rfl⟩ := ofScan_eq_ok h
      have hindex := (IndexScan.build_eq_ok hs).1
      refine ⟨?_, fun env henv => IndexScan.keyRange_failsWith hs henv,
        fun key hkey => IndexScan.rowOf_yields hix hs hkey⟩
      rw [hindex]
      exact Index.zeroFree_storageTable htable hname
  | select _ h ih =>
      obtain ⟨⟨⟩, -, h⟩ := Except.bind_eq_ok_iff.mp h
      obtain ⟨type, htype, h⟩ := Except.bind_eq_ok_iff.mp h
      split at h
      · rename_i hbool
        obtain rfl := Except.ok.inj h
        exact ⟨htype.trans (congrArg Except.ok hbool), ih hmeet⟩
      · cases h
  | project _ h ih =>
      obtain ⟨⟨⟩, -, h⟩ := Except.bind_eq_ok_iff.mp h
      obtain ⟨q, hq, h⟩ := Except.bind_eq_ok_iff.mp h
      obtain rfl := Except.ok.inj h
      exact ⟨⟨_, hq⟩, ih hmeet⟩
  | aggregate _ h ih =>
      obtain ⟨g, hg, h⟩ := Except.bind_eq_ok_iff.mp h
      obtain rfl := Except.ok.inj h
      exact ⟨Grouping.typed_of_build hg, ih hmeet⟩
  | sort _ h ih =>
      obtain ⟨rfl, -⟩ := ofSort_eq_ok h
      exact ih hmeet
  | map _ h ih =>
      obtain rfl := ofMap_eq_ok h
      exact ⟨hmeet.1, ih hmeet.2⟩

/-! ## Trees of cursors -/

/-- Calls are made in engines of which a condition holds everywhere, and fail for no structural
reason. -/
def soundTerms (P : Store → Prop) : Terms where
  World w := w.engine.Everywhere P
  world_evolves := World.Evolves.everywhere
  Error := QueryError.Circumstantial
  error_operational := QueryError.Operational.circumstantial
  Employs _ _ := True
  employs _ _ _ := trivial

/-- Each cursor of a tree holds environments that supply what its plan expects, and rows of the
types it should. -/
def Typed (P : Store → Prop) : (p : Plan) → (Env → Prop) → p.State → Prop
  | values .., S => ValuesCursor.Kept S
  | scan s, S => IndexScanCursor.Kept S s fun key => ∃ row, s.index.encodeRow row = .ok key
  | select input _, S => SelectCursor.Kept S (input.Typed P S)
  | project input _, S => ProjectCursor.Kept S (input.Typed P S)
  | aggregate input g, S =>
      AggregateCursor.Kept S (input.Typed P S) (AggregateCursor.Progress.Typed g)
  | sort input _, S => SortCursor.Kept S (input.Typed P S) (Row.Fits input.rowType)
  | map input _, S => fun s => ∀ ctx, ParallelCursor.Kept (soundTerms P) S (Row.Fits input.rowType)
      (fun _ => input.Typed P (Env.Supplies · input.demands)) ctx s

variable {P : Store → Prop}

/-- Workers may run in any context. -/
theorem kept_anywhere {σ : Type} {S : Env → Prop} {V : Row → Prop} {I : σ → Prop}
    {ctx : Context} {s : ParallelCursor.State σ}
    (h : ParallelCursor.Kept (soundTerms P) S V (fun _ => I) ctx s) (ctx' : Context) :
    ParallelCursor.Kept (soundTerms P) S V (fun _ => I) ctx' s := by
  refine ⟨h.base, h.source, fun r hr => ⟨fun k hk => ?_, (h.run r hr).channel⟩⟩
  obtain ⟨-, hcursor, hphase⟩ := (h.run r hr).workers k hk
  exact ⟨trivial, hcursor, hphase⟩

/-- The partitions of a map supply what the plan below it expects. -/
theorem supplies_set_fork {input : Plan} {m : Partitioning} {env : Env}
    (hpartitions : ∀ d ∈ input.demands, d.1 = m.position → ∀ b ∈ m.partitions, b.Meets d.2)
    (henv : env.Supplies (map input m).demands) {b : Binding} (hb : b ∈ m.partitions) :
    (env.fork.set m.position b).Supplies input.demands := by
  intro d hd
  rw [Env.get?_set_fork]
  split
  · rename_i hsame
    exact ⟨b, rfl, hpartitions d hd hsame b hb⟩
  · rename_i hother
    exact henv d (List.mem_filter.mpr ⟨hd, bne_iff_ne.mpr hother⟩)

/-- The cursor of a sound plan returns rows of the type of the plan, and does not go structurally
wrong. -/
theorem Coherent.upholds {p : Plan} (hp : p.Coherent)
    (hP : ∀ store, P store → p.KeysOnly store) {S : Env → Prop}
    (hS : ∀ env, S env → env.Supplies p.demands) :
    p.cursor.Upholds (soundTerms P) S (Row.Fits p.rowType) fun _ => p.Typed P S := by
  induction p generalizing S with
  | values type rows => exact ValuesCursor.upholds hp
  | scan s =>
      obtain ⟨hfree, hrange, hrow⟩ := hp
      refine IndexScanCursor.upholds (fun env henv => hrange env (hS env henv)) ?_ hrow
      exact fun w hw session => (hP _ (Engine.Everywhere.view hw session)).provides hfree
  | select input predicate ih =>
      obtain ⟨htype, hinput⟩ := hp
      refine SelectCursor.upholds (ih hinput hP fun env henv =>
        (hS env henv).subset (List.subset_append_right _ _)) fun env row henv hrow => ?_
      exact (Expr.eval_yields hrow.covers htype
        ((hS env henv).subset (List.subset_append_left _ _))).failsWith
  | project input q ih =>
      obtain ⟨⟨exprs, hq⟩, hinput⟩ := hp
      refine ProjectCursor.upholds (ih hinput hP fun env henv =>
        (hS env henv).subset (List.subset_append_right _ _)) fun env row henv hrow => ?_
      exact Projection.apply_yields hq ((hS env henv).subset (List.subset_append_left _ _)) hrow
  | aggregate input g ih =>
      obtain ⟨hg, hinput⟩ := hp
      exact AggregateCursor.upholds (ih hinput hP hS)
        (AggregateCursor.folds (fun _ h => h) hg)
  | sort input s ih => exact SortCursor.upholds (ih hp hP hS)
  | map input m ih =>
      obtain ⟨hpartitions, hinput⟩ := hp
      have hmap := ParallelCursor.upholds (S := S) (ih hinput hP fun _ henv => henv)
        fun env henv b hb => supplies_set_fork hpartitions (hS env henv) hb
      refine hmap.congr fun ctx s => ⟨fun h => kept_anywhere h, fun h => h ctx⟩

/-- The cursors of a tree with their plans, those of workers included. -/
def cursors : (p : Plan) → p.State → List (Σ q : Plan, q.State)
  | values type rows, s => [⟨values type rows, s⟩]
  | scan i, s => [⟨scan i, s⟩]
  | select input predicate, s =>
      ⟨select input predicate, s⟩ :: input.cursors (s : SelectCursor.State input.State).input
  | project input p, s =>
      ⟨project input p, s⟩ :: input.cursors (s : ProjectCursor.State input.State).input
  | aggregate input g, s =>
      ⟨aggregate input g, s⟩ :: input.cursors (s : AggregateCursor.State input.State).input
  | sort input i, s =>
      ⟨sort input i, s⟩ :: input.cursors (s : SortCursor.State input.State).input
  | map input m, s =>
      ⟨map input m, s⟩ :: ((s : ParallelCursor.State input.State).run.toList.flatMap
        Run.workers).flatMap fun k => input.cursors k.cursor

/-- One call of some cursor of a tree leads from one state of the tree to another. -/
inductive Turn (W : World → Prop) : (p : Plan) → p.State → p.State → Prop where
  | call {p : Plan} {s : p.State} (c : Call) (ctx : Context) {w : World} (hw : W w) :
      Turn W p s (p.cursor.call c ctx s w).state
  | select {input : Plan} {predicate : Expr} {s : SelectCursor.State input.State}
      {t : input.State} (h : Turn W input s.input t) :
      Turn W (select input predicate) s { s with input := t }
  | project {input : Plan} {p : Projection} {s : ProjectCursor.State input.State}
      {t : input.State} (h : Turn W input s.input t) :
      Turn W (project input p) s { s with input := t }
  | aggregate {input : Plan} {g : Grouping} {s : AggregateCursor.State input.State}
      {t : input.State} (h : Turn W input s.input t) :
      Turn W (aggregate input g) s { s with input := t }
  | sort {input : Plan} {i : Sorting} {s : SortCursor.State input.State} {t : input.State}
      (h : Turn W input s.input t) : Turn W (sort input i) s { s with input := t }
  | worker {input : Plan} {m : Partitioning} {s : ParallelCursor.State input.State}
      {r : Run input.State} (hrun : s.run = some r) {i : Nat} {k : Worker input.State}
      (hk : r.workers[i]? = some k) {t : input.State} (h : Turn W input k.cursor t) :
      Turn W (map input m) s
        { s with run := some { r with workers := r.workers.set i { k with cursor := t } } }

variable {S : Env → Prop}

/-- Calls of cursors of a tree leave the tree typed. -/
theorem Typed.turn {p : Plan} {s s' : p.State} (hp : p.Coherent)
    (hP : ∀ store, P store → p.KeysOnly store) (hS : ∀ env, S env → env.Supplies p.demands)
    (hs : p.Typed P S s) (h : Turn (fun w => w.engine.Everywhere P) p s s') : p.Typed P S s' := by
  induction h generalizing S with
  | call c ctx hw => exact ((hp.upholds hP hS).call c ctx hs hw).state
  | select _ ih =>
      refine ⟨hs.base, ih hp.2 hP (fun env henv => ?_) hs.input, hs.run⟩
      exact (hS env henv).subset (List.subset_append_right _ _)
  | project _ ih =>
      refine ⟨hs.base, ih hp.2 hP (fun env henv => ?_) hs.input, hs.run⟩
      exact (hS env henv).subset (List.subset_append_right _ _)
  | aggregate _ ih => exact ⟨hs.base, ih hp.2 hP hS hs.input, hs.run⟩
  | sort _ ih => exact ⟨hs.base, ih hp hP hS hs.input, hs.run⟩
  | worker hrun hk _ ih =>
      intro ctx
      obtain ⟨hbase, hsource, hr⟩ := hs ctx
      obtain ⟨hworkers, hchannel⟩ := hr _ hrun
      refine ParallelCursor.kept_some hbase hsource rfl ⟨fun k' hk' => ?_, hchannel⟩
      rcases List.mem_or_eq_of_mem_set hk' with hmem | rfl
      · exact hworkers k' hmem
      · obtain ⟨-, hcursor, hphase⟩ := hworkers _ (List.mem_of_getElem? hk)
        exact ⟨trivial, ih hp.2 hP (fun _ henv => henv) hcursor, hphase⟩

/-- Every cursor of a typed tree is on terms of its own. -/
theorem Typed.of_mem_cursors {p : Plan} {s : p.State} (hp : p.Coherent)
    (hP : ∀ store, P store → p.KeysOnly store) (hS : ∀ env, S env → env.Supplies p.demands)
    (hs : p.Typed P S s) (ctx : Context) {q : Plan} {t : q.State} (ht : ⟨q, t⟩ ∈ p.cursors s) :
    ∃ S', q.cursor.Upholds (soundTerms P) S' (Row.Fits q.rowType) (fun _ => q.Typed P S') ∧
      q.Typed P S' t := by
  induction p generalizing S with
  | values type rows =>
      cases List.mem_singleton.mp ht
      exact ⟨S, hp.upholds hP hS, hs⟩
  | scan i =>
      cases List.mem_singleton.mp ht
      exact ⟨S, hp.upholds hP hS, hs⟩
  | select input predicate ih =>
      rcases List.mem_cons.mp ht with hroot | ht
      · cases hroot
        exact ⟨S, hp.upholds hP hS, hs⟩
      · refine ih hp.2 hP (fun env henv => ?_) hs.input ht
        exact (hS env henv).subset (List.subset_append_right _ _)
  | project input i ih =>
      rcases List.mem_cons.mp ht with hroot | ht
      · cases hroot
        exact ⟨S, hp.upholds hP hS, hs⟩
      · refine ih hp.2 hP (fun env henv => ?_) hs.input ht
        exact (hS env henv).subset (List.subset_append_right _ _)
  | aggregate input g ih =>
      rcases List.mem_cons.mp ht with hroot | ht
      · cases hroot
        exact ⟨S, hp.upholds hP hS, hs⟩
      · exact ih hp.2 hP hS hs.input ht
  | sort input i ih =>
      rcases List.mem_cons.mp ht with hroot | ht
      · cases hroot
        exact ⟨S, hp.upholds hP hS, hs⟩
      · exact ih hp hP hS hs.input ht
  | map input m ih =>
      rcases List.mem_cons.mp ht with hroot | ht
      · cases hroot
        exact ⟨S, hp.upholds hP hS, hs⟩
      · obtain ⟨k, hk, ht⟩ := List.mem_flatMap.mp ht
        obtain ⟨r, hr, hk⟩ := List.mem_flatMap.mp hk
        have hworker := ((hs ctx).run r (Option.mem_toList.mp hr)).workers k hk
        exact ih hp.2 hP (fun _ henv => henv) hworker.cursor ht

/-- A new tree is typed, and stays so while its cursors are called. -/
theorem Coherent.typed {p : Plan} (hp : p.Coherent) {source : BindingSource}
    (hsource : source.Supplies (Env.Supplies · p.demands)) (ctx : Context) {s : p.State}
    (hs : Relation.ReflTransGen (Turn (fun w => w.engine.Everywhere p.KeysOnly) p)
      (p.cursor.fresh source) s) : p.Typed p.KeysOnly (Env.Supplies · p.demands) s := by
  induction hs with
  | refl => exact (hp.upholds (fun _ h => h) fun _ h => h).fresh ctx hsource
  | tail _ hturn ih => exact ih.turn hp (fun _ h => h) (fun _ h => h) hturn

/-- A plan that was accepted does not go structurally wrong.

Let the environments it is run in and the partitions of its parallel maps be what the expressions
that read them expect, and let the tables of its indexes hold keys of rows only.  Then whatever
calls were made of the cursors of the tree before, workers' cursors included, and whatever call of
one of them follows: a row that it returns has one value for each field of the row type of that
cursor's plan, of the type of the field, and an error that says that plan, types, bindings or the
keys of bounds do not fit is a map's refusal to let its workers write, or the comparison of a
NaN. -/
theorem cursors_never_go_wrong {p : Plan} (hp : p.Accepted) (hmeet : p.PartitionsMeet)
    {source : BindingSource} (hsource : source.Supplies (Env.Supplies · p.demands))
    {s : p.State}
    (hs : Relation.ReflTransGen (Turn (fun w => w.engine.Everywhere p.KeysOnly) p)
      (p.cursor.fresh source) s)
    {q : Plan} {t : q.State} (ht : ⟨q, t⟩ ∈ p.cursors s) (c : Call) (ctx : Context) {w : World}
    (hw : w.engine.Everywhere p.KeysOnly) :
    (∀ row, (q.cursor.call c ctx t w).result = .ok (.row (some row)) →
      q.rowType.Describes row.values) ∧
    ∀ e, (q.cursor.call c ctx t w).result = .error e → e.kind ∈ QueryError.structuralKinds →
      e.Excused := by
  have hsound := hp.coherent hmeet
  have htyped := hsound.typed hsource ctx hs
  obtain ⟨S', hq, htyped⟩ := htyped.of_mem_cursors hsound (fun _ h => h) (fun _ h => h) ctx ht
  have hresult := (hq.call c ctx htyped hw).result
  constructor
  · intro row hrow
    rw [hrow] at hresult
    exact Row.Fits.describes (hresult.of_ok row rfl)
  · intro e he
    rw [he] at hresult
    exact QueryError.Circumstantial.excused hresult.of_error

/-- Workers count the entries of each group, from the key on that their partitions bind. -/
theorem cursors_never_go_wrong_counts :
    let ix : Index := ⟨"t", "i", [⟨"a", .int, true, .declared⟩], 1, false, none⟩
    let store := Store.empty.insert (Layout.storedKey "t.i" (Key.encode false (.int 7))) []
    let pair : RowType := .ofFields [.int, .int]
    let scan : IndexScan := ⟨ix, ⟨some ⟨[.boundField 0 1 .int], true⟩, none⟩, .forward, false,
      IndexScan.rowTypeOf ix⟩
    let input : Plan := .aggregate (.scan scan) ⟨1, [⟨"count", none, .count⟩], pair⟩
    let p : Plan := .map input ⟨[.row ⟨pair, [.null, .int 2], rfl⟩], 0⟩
    let made := (World.ofEngine ⟨store, [], 0⟩).newContext {}
    let supplied := (p.cursor.call .nextBindings made.1
      (p.cursor.call .openBindings made.1
        (p.cursor.fresh (.ofEnv .root)) made.2).state made.2).state
    let s := (p.cursor.call .openRun made.1 supplied made.2).state
    let o := p.cursor.call .next made.1 s made.2
    (match o.result with
      | .ok (.row (some row)) => some row.values
      | _ => none) = some [.int 7, .int 1] ∧
    (∀ row, o.result = .ok (.row (some row)) → pair.Describes row.values) ∧
    ∀ e, o.result = .error e → e.kind ∈ QueryError.structuralKinds → e.Excused := by
  intro ix store pair scan input p made supplied s o
  have hix : Index.Draft.build ⟨"t", "i", [⟨"a", .int, true, .declared⟩], false, none⟩ = .ok ix :=
    rfl
  have hscan : ofScan ix scan.range [true] = .ok (.scan scan) := rfl
  have hcount : Registry.builtins.get "count" = .ok .count :=
    Registry.get_of_mem_builtins List.mem_cons_self
  have haggregate : ofAggregate .builtins (.scan scan) 1 [("count", none)] = .ok input := by
    unfold ofAggregate Grouping.build Grouping.resolve
    rw [hcount]
    rfl
  have hmap : ofMap input ⟨[.row ⟨pair, [.null, .int 2], rfl⟩], 0⟩ = .ok p := rfl
  have hp : p.Accepted :=
    .map (.aggregate (.scan hix (by decide +kernel) (by decide +kernel) hscan) haggregate) hmap
  have hw : made.2.engine.Everywhere p.KeysOnly := by
    refine ⟨?_, List.forall_mem_nil _⟩
    have hholds : ix.Holds [[.int 7]] store := (Index.holds_empty ix).insert rfl []
    exact hholds.keysOnly
  have hs : Relation.ReflTransGen (Turn (fun w => w.engine.Everywhere p.KeysOnly) p)
      (p.cursor.fresh (.ofEnv .root)) s :=
    ((Relation.ReflTransGen.single (.call .openBindings made.1 hw)).tail
      (.call .nextBindings made.1 hw)).tail (.call .openRun made.1 hw)
  have hmeet : p.PartitionsMeet := by
    refine ⟨fun d hd _ b hb => ?_, trivial⟩
    cases List.mem_singleton.mp hd
    cases List.mem_singleton.mp hb
    exact ⟨.int 2, rfl, rfl⟩
  have hsource : (BindingSource.ofEnv .root).Supplies (Env.Supplies · p.demands) :=
    List.forall_mem_nil _
  exact ⟨by decide +kernel,
    cursors_never_go_wrong hp hmeet hsource hs List.mem_cons_self .next made.1 hw⟩

end Plan
end OrderedQuery
