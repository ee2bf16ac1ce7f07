import OrderedQuery.Index.Draft
import OrderedQuery.Proofs.Cursor.StoredRows
import OrderedQuery.Proofs.Store.ChangingStore
import OrderedQuery.Proofs.Store.SeparateTables
import OrderedQuery.Proofs.Store.Sessions

/-!
# Indexes that share a table of the store

The entries of an index lie in a table that is named after the table and the index, with a dot
between.  Names may hold dots themselves, so two indexes can come to share a table.  When the
dots do not meet, writing rows through one index leaves all scans of the other as they are
(`IndexScanCursor.unaffected_unless_namesMeet`).
-/

namespace OrderedQuery

namespace Index

/-! ## Names -/

/-- Taken together, the names of two indexes are the same but for the dot that counts. -/
def NamesMeet (a b : Index) : Prop :=
  ∃ middle, (a.table = b.table ++ "." ++ middle ∧ b.name = middle ++ "." ++ a.name) ∨
    (b.table = a.table ++ "." ++ middle ∧ a.name = middle ++ "." ++ b.name)

/-- Names split at a separator in two ways are the same, or one split comes first. -/
theorem append_cons_eq_append_cons_iff {α : Type} {x y x' y' : List α} {dot : α} :
    x ++ dot :: y = x' ++ dot :: y' ↔ (x = x' ∧ y = y') ∨
      ∃ middle, (x = x' ++ dot :: middle ∧ y' = middle ++ dot :: y) ∨
        (x' = x ++ dot :: middle ∧ y = middle ++ dot :: y') := by
  constructor
  · intro h
    rcases List.append_eq_append_iff.mp h with ⟨z, hx', hy⟩ | ⟨z, hx, hy'⟩
    · cases z with
      | nil => exact .inl ⟨by simpa using hx'.symm, (List.cons.inj hy).2⟩
      | cons d middle =>
          obtain ⟨rfl, hrest⟩ := List.cons.inj hy
          exact .inr ⟨middle, .inr ⟨hx', hrest⟩⟩
    · cases z with
      | nil => exact .inl ⟨by simpa using hx, (List.cons.inj hy').2.symm⟩
      | cons d middle =>
          obtain ⟨rfl, hrest⟩ := List.cons.inj hy'
          exact .inr ⟨middle, .inl ⟨hx, hrest⟩⟩
  · rintro (⟨rfl, rfl⟩ | ⟨middle, ⟨rfl, rfl⟩ | ⟨rfl, rfl⟩⟩)
    · rfl
    · simp
    · simp

theorem toList_append_dot (s t : String) :
    (s ++ "." ++ t).toList = s.toList ++ '.' :: t.toList := by
  simp [String.toList_append]

/-- Indexes of different names share a table exactly if their names meet. -/
theorem storageTable_eq_iff {a b : Index} (hnames : (a.table, a.name) ≠ (b.table, b.name)) :
    a.storageTable = b.storageTable ↔ a.NamesMeet b := by
  have hlist (s t : String) : s = t ↔ s.toList = t.toList := String.toList_inj.symm
  have hmiddle {p : List Char → Prop} : (∃ l, p l) ↔ ∃ middle : String, p middle.toList :=
    ⟨fun ⟨l, h⟩ => ⟨String.ofList l, by simpa using h⟩, fun ⟨s, h⟩ => ⟨_, h⟩⟩
  have hother : ¬ (a.table.toList = b.table.toList ∧ a.name.toList = b.name.toList) := by
    rintro ⟨htable, hname⟩
    exact hnames (by rw [String.toList_inj.mp htable, String.toList_inj.mp hname])
  rw [hlist, storageTable, storageTable, toList_append_dot, toList_append_dot,
    append_cons_eq_append_cons_iff, or_iff_right hother, hmiddle]
  simp only [NamesMeet, hlist, toList_append_dot]

/-! ## Writing rows -/

/-- A row that a session writes through an index, with the value to be stored under its key. -/
structure RowWrite where
  session : SessionId
  row : List Value
  value : Bytes

/-- Writes a row under its key, if it has one and the session may write. -/
def write (ix : Index) (e : Engine) (x : RowWrite) : Engine :=
  match ix.encodeRow x.row with
  | .error _ => e
  | .ok key => (e.call x.session (.put ix.storageTable key x.value)).2

/-- Writes rows one after the other. -/
def writeAll (ix : Index) (e : Engine) (writes : List RowWrite) : Engine :=
  writes.foldl ix.write e

end Index

namespace Engine

/-- A write is read by the sessions that read the state written to. -/
theorem view_call_put (e : Engine) (s : SessionId) (table : String) (key value : Bytes)
    (r : SessionId) :
    (e.call s (.put table key value)).2.view r = e.view r ∨
      (e.call s (.put table key value)).2.view r =
        (e.view r).insert (Layout.storedKey table key) value := by
  have heffect := e.effect_call s (.put table key value)
  have htransaction := heffect.transactions r
  cases hs : e.transaction? s with
  | none =>
      have hcommitted : (e.call s (.put table key value)).2.committed =
          e.committed.insert (Layout.storedKey table key) value := by
        rw [heffect.committed, committedAfter, hs]
      have hsame : (e.call s (.put table key value)).2.transaction? r = e.transaction? r := by
        rw [htransaction, ownAfter, hs]
        split
        · rename_i hr
          rw [hr, hs]
        · rfl
      cases hr : e.transaction? r with
      | none => exact .inr (by rw [view_of_none (hsame.trans hr), view_of_none hr, hcommitted])
      | some t => exact .inl (by rw [view_of_some (hsame.trans hr), view_of_some hr])
  | some t =>
      have hcommitted : (e.call s (.put table key value)).2.committed = e.committed := by
        rw [heffect.committed, committedAfter, hs]
      by_cases hr : r = s
      · subst hr
        rw [if_pos rfl, ownAfter, hs] at htransaction
        obtain ⟨mode, store⟩ := t
        cases mode with
        | readOnly => exact .inl (view_congr (htransaction.trans hs.symm) hcommitted)
        | readWrite => exact .inr (by rw [view_of_some htransaction, view_of_some hs])
      · exact .inl (view_congr (htransaction.trans (if_neg hr)) hcommitted)

end Engine

namespace Index

/-- Rows of one table are not seen in another. -/
theorem tables_writeAll {ix : Index} (hfree : Layout.ZeroFree ix.storageTable) {table : TableName}
    (hother : table.1 ≠ ix.storageTable) (e : Engine) (writes : List RowWrite) (r : SessionId) :
    ((ix.writeAll e writes).view r).tables table = (e.view r).tables table := by
  let own : TableName := ⟨ix.storageTable, hfree⟩
  have hne : table ≠ own := fun h => hother (congrArg Subtype.val h)
  have hwrite (e : Engine) (x : RowWrite) :
      ((ix.write e x).view r).tables table = (e.view r).tables table := by
    rw [write]
    cases ix.encodeRow x.row with
    | error err => rfl
    | ok key =>
        rcases e.view_call_put x.session ix.storageTable key x.value r with hsame | hinsert
        · exact congrFun (congrArg Store.tables hsame) table
        · have hset : ((e.view r).insert (Layout.storedKey own key) x.value).tables =
              (e.view r).tables.set own key (some x.value) :=
            Store.tables_of_get? ((e.view r).get?_insert (Layout.storedKey own key) x.value)
          dsimp only
          rw [hinsert, hset, Tables.set_of_ne hne]
  induction writes generalizing e with
  | nil => rfl
  | cons x writes ih => exact (ih (ix.write e x)).trans (hwrite e x)

end Index

/-! ## Scans -/

theorem Traversal.next_congr {t : Traversal} {s s' : Store} {table : TableName}
    (htable : t.table = table) (hsame : s'.tables table = s.tables table) :
    t.next s' = t.next s := by
  have hscan := Store.scan_congr hsame t.range t.lastKey t.direction t.batchSize
  rw [← htable] at hscan
  have hrefill : t.refill s' = t.refill s := by rw [refill, refill, hscan]
  rw [next, next, hrefill]

namespace IndexScanCursor

variable (scan : IndexScan) {table : TableName} {ctx : Context} {s : State} {w : World}
  {e : Engine}

/-- The traversal of a run stays in its table. -/
def Within (table : TableName) (s : State) : Prop :=
  ∀ t ∈ s.run, t.table = table.1

theorem advance_congr (hwithin : Within table s)
    (hsame : (e.view ctx.session).tables table = (w.engine.view ctx.session).tables table) :
    advance ctx { w with engine := e } s.run = advance ctx w s.run := by
  cases hrun : s.run with
  | none => rfl
  | some t => rw [advance, advance, Traversal.next_congr (hwithin t hrun) hsame]

theorem Within.advance (hwithin : Within table s) (ctx : Context) (w : World) :
    ∀ t ∈ (advance ctx w s.run).2, t.table = table.1 := by
  cases hrun : s.run with
  | none => exact nofun
  | some t =>
      intro t' ht'
      obtain rfl := Option.some.inj ht'
      exact (t.next_keeps _).1.trans (hwithin t hrun)

/-- Another engine that shows the table as it is makes no difference. -/
structure Unaffected (table : TableName) (e : Engine) (w : World) (o o' : Outcome State α) :
    Prop where
  outcome : o' = ⟨o.result, o.state, { o.world with engine := e }⟩
  within : Within table o.state
  engine : o.world.engine = w.engine

theorem next_unaffected (hwithin : Within table s)
    (hsame : (e.view ctx.session).tables table = (w.engine.view ctx.session).tables table) :
    Unaffected table e w (next scan ctx s w) (next scan ctx s { w with engine := e }) := by
  have hcheck : ({ w with engine := e } : World).check ctx =
      ((w.check ctx).1, { (w.check ctx).2 with engine := e }) := rfl
  have hengine : (w.check ctx).2.engine = w.engine := rfl
  rw [next, next, hcheck]
  generalize w.check ctx = checked at hengine
  obtain ⟨result, w₁⟩ := checked
  cases s.base.checkNext with
  | error err => exact ⟨rfl, hwithin, rfl⟩
  | ok u =>
      cases result with
      | error err => exact ⟨rfl, hwithin, hengine⟩
      | ok u =>
          have hengine₁ : w₁.engine = w.engine := hengine
          have hadvance : advance ctx { w₁ with engine := e } s.run = advance ctx w₁ s.run :=
            advance_congr hwithin (by rw [hsame, hengine₁])
          have hkept := hwithin.advance ctx w₁
          dsimp only
          rw [hadvance]
          generalize advance ctx w₁ s.run = advanced at hkept
          obtain ⟨entry, run⟩ := advanced
          cases entry with
          | none =>
              have hnone : Within table { s with base := s.base.finish, run := none } := by
                intro t ht
                cases ht
              exact ⟨rfl, hnone, hengine₁⟩
          | some found =>
              dsimp only
              cases rowOf scan found.1 with
              | error err => exact ⟨rfl, hkept, hengine₁⟩
              | ok row => exact ⟨rfl, hkept, hengine₁⟩

theorem drainWith_unaffected (hwithin : Within table s)
    (hsame : (e.view ctx.session).tables table = (w.engine.view ctx.session).tables table)
    (fuel : Nat) :
    ((machine scan).drainWith ctx fuel s { w with engine := e }).1 =
        ((machine scan).drainWith ctx fuel s w).1 ∧
      Unaffected table e w ((machine scan).drainWith ctx fuel s w).2
        ((machine scan).drainWith ctx fuel s { w with engine := e }).2 := by
  induction fuel generalizing s w with
  | zero => exact ⟨rfl, rfl, hwithin, rfl⟩
  | succ fuel ih =>
      obtain ⟨houtcome, hwithin', hengine⟩ := next_unaffected scan hwithin hsame
      have hnext : (machine scan).next ctx s { w with engine := e } = _ := houtcome
      rw [Machine.drainWith, Machine.drainWith, hnext]
      have ho : (machine scan).next ctx s w = next scan ctx s w := rfl
      rw [ho]
      generalize next scan ctx s w = o at hwithin' hengine
      obtain ⟨result, s', w'⟩ := o
      cases result with
      | error err => exact ⟨rfl, rfl, hwithin', hengine⟩
      | ok found =>
          cases found with
          | none => exact ⟨rfl, rfl, hwithin', hengine⟩
          | some row =>
              have hengine' : w'.engine = w.engine := hengine
              obtain ⟨hrows, hrest⟩ := ih (s := s') (w := w') hwithin' (by rw [hsame, hengine'])
              exact ⟨congrArg (row :: ·) hrows, hrest.outcome, hrest.within,
                hrest.engine.trans hengine'⟩

theorem openRun_unaffected (htable : table.1 = scan.index.storageTable) (ctx : Context)
    (s : State) (w : World) (e : Engine) :
    ∃ o, openRun scan ctx s w = o ∧
      openRun scan ctx s { w with engine := e } =
        ⟨o.result, o.state, { o.world with engine := e }⟩ ∧
      o.world = w ∧ (o.result = .ok () → Within table o.state) := by
  refine ⟨_, rfl, ?_⟩
  rw [openRun, openRun]
  cases s.base.beginOpen with
  | error err => exact ⟨rfl, rfl, fun hok => by cases hok⟩
  | ok base =>
      dsimp only
      rw [traversal?]
      cases base.currentEnv with
      | error err => exact ⟨rfl, rfl, fun hok => by cases hok⟩
      | ok env =>
          dsimp only [bind, Except.bind]
          cases scan.keyRange env with
          | error err => exact ⟨rfl, rfl, fun hok => by cases hok⟩
          | ok range =>
              refine ⟨rfl, rfl, fun _ t ht => ?_⟩
              obtain ⟨r, -, rfl⟩ := Option.map_eq_some_iff.mp ht
              exact htable.symm

theorem runWith_unaffected (htable : table.1 = scan.index.storageTable)
    (hsame : (e.view ctx.session).tables table = (w.engine.view ctx.session).tables table)
    (fuel : Nat) (s : State) :
    ((machine scan).runWith ctx fuel s { w with engine := e }).1 =
        ((machine scan).runWith ctx fuel s w).1 ∧
      ((machine scan).runWith ctx fuel s { w with engine := e }).2.result =
        ((machine scan).runWith ctx fuel s w).2.result := by
  obtain ⟨⟨result, s', w'⟩, hopened, hopened', rfl, hwithin⟩ :=
    openRun_unaffected scan htable ctx s w e
  rw [Machine.runWith, Machine.runWith]
  dsimp only [machine]
  rw [hopened, hopened']
  cases result with
  | error err => exact ⟨rfl, rfl⟩
  | ok u =>
      obtain ⟨⟩ := u
      obtain ⟨hrows, houtcome⟩ :=
        drainWith_unaffected scan (hwithin rfl) hsame fuel
      have hresult := congrArg Outcome.result houtcome.outcome
      exact ⟨hrows, hresult⟩

/-- Two indexes share a table exactly if their names meet.  Otherwise no rows written through
the one are seen by a scan of the other: it returns the same rows as before, and ends the same
way. -/
theorem unaffected_unless_namesMeet {a b : Index} (htable : Layout.ZeroFree a.table)
    (hname : Layout.ZeroFree a.name) (htable' : Layout.ZeroFree b.table)
    (hname' : Layout.ZeroFree b.name) (hnames : (a.table, a.name) ≠ (b.table, b.name)) :
    (a.storageTable = b.storageTable ↔ a.NamesMeet b) ∧
      (¬ a.NamesMeet b → ∀ range ordering scan, IndexScan.build b range ordering = .ok scan →
        ∀ (writes : List Index.RowWrite) (ctx : Context) (fuel : Nat) (s : State) (w : World),
          let before := (machine scan).runWith ctx fuel s w
          let after := (machine scan).runWith ctx fuel s
            { w with engine := a.writeAll w.engine writes }
          after.1 = before.1 ∧ after.2.result = before.2.result) := by
  have hshared := Index.storageTable_eq_iff hnames
  refine ⟨hshared, ?_⟩
  intro hapart range ordering scan hscan writes ctx fuel s w
  obtain ⟨rfl, -⟩ := IndexScan.build_eq_ok hscan
  let table : TableName := ⟨scan.index.storageTable, Index.zeroFree_storageTable htable' hname'⟩
  have hother : table.1 ≠ a.storageTable := fun h => hapart (hshared.mp h.symm)
  have hfree := Index.zeroFree_storageTable htable hname
  have hsame := Index.tables_writeAll hfree hother w.engine writes ctx.session
  have htable' : table.1 = scan.index.storageTable := rfl
  exact runWith_unaffected scan htable' hsame fuel s

/-- Two indexes of one table. -/
theorem unaffected_unless_namesMeet_one_table :
    let a : Index := ⟨"t", "i", [⟨"k", .int, true, .declared⟩], 1, false, none⟩
    let b : Index := ⟨"t", "j", [⟨"k", .int, true, .declared⟩], 1, false, none⟩
    let scan : IndexScan := ⟨b, ⟨none, none⟩, .forward, false, ⟨[.int], some (.index "t" "j")⟩⟩
    ¬ a.NamesMeet b ∧ ∀ (writes : List Index.RowWrite) (ctx : Context) (fuel : Nat) (s : State)
        (w : World),
      let before := (machine scan).runWith ctx fuel s w
      let after := (machine scan).runWith ctx fuel s
        { w with engine := a.writeAll w.engine writes }
      after.1 = before.1 ∧ after.2.result = before.2.result := by
  intro a b scan
  obtain ⟨hshared, hunaffected⟩ := unaffected_unless_namesMeet (a := a) (b := b)
    (by decide +kernel) (by decide +kernel) (by decide +kernel) (by decide +kernel) (by decide)
  have hapart : ¬ a.NamesMeet b := hshared.not.mp (by decide +kernel)
  exact ⟨hapart, hunaffected hapart ⟨none, none⟩ [] scan rfl⟩

/-- A dot in the name of a table, and one in the name of an index. -/
theorem not_unaffected_by_dots :
    ¬ ∀ (d d' : Index.Draft) (a b : Index), d.build = .ok a → d'.build = .ok b →
      (a.table, a.name) ≠ (b.table, b.name) → ∀ ordering scan,
        IndexScan.build b ⟨none, none⟩ ordering = .ok scan →
        ∀ (writes : List Index.RowWrite) (ctx : Context) (fuel : Nat) (s : State) (w : World),
          ((machine scan).runWith ctx fuel s
              { w with engine := a.writeAll w.engine writes }).1 =
            ((machine scan).runWith ctx fuel s w).1 := by
  intro hunaffected
  let columns : List Column := [⟨"k", .int, true, .declared⟩]
  let d : Index.Draft := { table := "a.b", name := "c", columns }
  let d' : Index.Draft := { table := "a", name := "b.c", columns }
  let a : Index := ⟨"a.b", "c", columns, 1, false, none⟩
  let b : Index := ⟨"a", "b.c", columns, 1, false, none⟩
  let scan : IndexScan := ⟨b, ⟨none, none⟩, .forward, false, ⟨[.int], some (.index "a" "b.c")⟩⟩
  let made := (World.ofEngine .empty).newContext {}
  let s : State := ⟨(CursorBase.start "IndexScan").bind (some .root), .ofEnv .root, none⟩
  let rows (w : World) := ((machine scan).runWith made.1 2 s w).1.map Row.values
  have hsame := hunaffected d d' a b rfl rfl (by decide) [] scan rfl
    [⟨made.1.session, [.int 1], []⟩] made.1 2 s made.2
  have hbefore : rows made.2 = [] := by decide +kernel
  have hafter : rows { made.2 with
      engine := a.writeAll made.2.engine [⟨made.1.session, [.int 1], []⟩] } = [[.int 1]] := by
    decide +kernel
  have hrows := congrArg (List.map Row.values) hsame
  have heq : [[Value.int 1]] = [] := hafter.symm.trans (hrows.trans hbefore)
  cases heq

end IndexScanCursor
end OrderedQuery
