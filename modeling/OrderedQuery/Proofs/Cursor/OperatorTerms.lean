import OrderedQuery.Proofs.Cursor.Terms

/-!
# Operators uphold their terms

Each operator has one lemma, which asks for two things: that the input upholds its terms, and that
what the operator itself computes from environments and rows is right.
-/

namespace OrderedQuery

variable {T : Terms} {S : Env → Prop} {V : Row → Prop}

/-! ## Operators without input -/

namespace ValuesCursor

variable {rows : List Row}

abbrev Kept (S : Env → Prop) : State → Prop := Leaf.Kept S fun _ => True

theorem closeRun_kept (ctx : Context) {s : State} {w : World} (hs : Kept S s) (hw : T.World w) :
    (closeRun ctx s w).Keeps T (Kept S) fun _ => True := by
  have hbegun := hs.base.beginClose (T := T)
  rw [closeRun]
  generalize s.base.beginClose = x at hbegun
  obtain he | hbase := hbegun
  · exact .error hs he hw
  · exact .ok ⟨hbase, hs.source, trivial⟩ trivial hw

theorem upholds (hrows : ∀ row ∈ rows, V row) :
    (machine rows).Upholds T S V fun _ => Kept S where
  evolving := evolving rows
  fresh _ _ hsource := ⟨CursorBase.kept_start _, hsource, trivial⟩
  openRun ctx s w hs hw := by
    have hbegun := hs.base.beginOpen (T := T)
    dsimp only [machine]
    rw [openRun]
    generalize s.base.beginOpen = x at hbegun
    obtain he | hbase := hbegun
    · exact .error hs he hw
    · exact .ok ⟨hbase, hs.source, trivial⟩ trivial hw
  next ctx s w hs hw := by
    have hchecked := s.base.checkNext_yields T
    dsimp only [machine]
    rw [next]
    generalize s.base.checkNext = x at hchecked
    obtain he | _ := hchecked
    · exact .error hs he hw
    · refine .ok ⟨hs.base.hand _, hs.source, trivial⟩ ?_ hw
      intro row hrow
      exact hrows row (List.mem_of_getElem? hrow)
  closeRun ctx _ _ hs hw := closeRun_kept ctx hs hw
  destroy ctx _ _ hs hw := Leaf.destroy_kept ctx (closeRun_kept ctx hs hw) hs hw
  openBindings ctx _ _ hs hw := Leaf.openBindings_kept ctx hs hw
  nextBindings ctx _ _ hs hw := Leaf.nextBindings_kept ctx hs hw
  closeBindings ctx _ _ hs hw := Leaf.closeBindings_kept ctx hs hw

end ValuesCursor

/-- The entries a traversal has fetched have keys of a kind. -/
structure Traversal.Fetched (table : String) (K : Bytes → Prop) (t : Traversal) : Prop where
  table_eq : t.table = table
  keys : ∀ e ∈ t.batch, K e.1

/-- Whatever is scanned of a table has keys of a kind. -/
def Store.Provides (table : String) (K : Bytes → Prop) (store : Store) : Prop :=
  ∀ range resume direction limit, ∀ e ∈ store.scan table range resume direction limit, K e.1

theorem Traversal.Fetched.next {table : String} {K : Bytes → Prop} {t : Traversal} {store : Store}
    (h : t.Fetched table K) (hstore : store.Provides table K) :
    (t.next store).2.Fetched table K ∧ ∀ e ∈ (t.next store).1, K e.1 := by
  have hrefilled : (t.refill store).Fetched table K := by
    rw [refill]
    split
    · refine ⟨h.table_eq, ?_⟩
      dsimp only
      rw [h.table_eq]
      exact hstore _ _ _ _
    · exact h
  rw [Traversal.next]
  generalize t.refill store = t' at hrefilled
  have hkeys := hrefilled.keys
  split
  · exact ⟨hrefilled, nofun⟩
  · rename_i e rest hbatch
    rw [hbatch] at hkeys
    refine ⟨⟨hrefilled.table_eq, fun e' he' => hkeys e' (List.mem_cons_of_mem e he')⟩, ?_⟩
    rintro _ ⟨⟩
    exact hkeys e List.mem_cons_self

namespace IndexScanCursor

variable {scan : IndexScan} {K : Bytes → Prop}

abbrev Kept (S : Env → Prop) (scan : IndexScan) (K : Bytes → Prop) : State → Prop :=
  Leaf.Kept S fun run => ∀ t ∈ run, t.Fetched scan.index.storageTable K

theorem fetched_none {table : String} : ∀ t ∈ (none : Option Traversal), t.Fetched table K := nofun

theorem traversal?_yields (hrange : ∀ env, S env → FailsWith T.Error (scan.keyRange env))
    (ctx : Context) {base : CursorBase} (h : base.Kept S) :
    Yields T.Error (fun run => ∀ t ∈ run, t.Fetched scan.index.storageTable K)
      (traversal? scan ctx base) := by
  refine h.currentEnv.bind fun env henv => ?_
  refine (Yields.of_failsWith (hrange env henv)).bind fun range _ => .ok ?_
  cases range with
  | none => exact fetched_none
  | some range =>
      rintro _ ⟨⟩
      exact ⟨rfl, nofun⟩

theorem advance_kept (hworld : ∀ w, T.World w → ∀ session,
      (w.engine.view session).Provides scan.index.storageTable K) (ctx : Context) {w : World}
    (hw : T.World w) {run : Option Traversal}
    (hrun : ∀ t ∈ run, t.Fetched scan.index.storageTable K) :
    (∀ t ∈ (advance ctx w run).2, t.Fetched scan.index.storageTable K) ∧
      ∀ e ∈ (advance ctx w run).1, K e.1 := by
  cases run with
  | none => exact ⟨fetched_none, fun e he => absurd he (Option.not_mem_none e)⟩
  | some t =>
      obtain ⟨hfetched, hkey⟩ := (hrun t rfl).next (hworld w hw ctx.session)
      refine ⟨?_, hkey⟩
      rintro _ ⟨⟩
      exact hfetched

theorem closeRun_kept (ctx : Context) {s : State} {w : World} (hs : Kept S scan K s)
    (hw : T.World w) : (closeRun ctx s w).Keeps T (Kept S scan K) fun _ => True := by
  have hbegun := hs.base.beginClose (T := T)
  rw [closeRun]
  generalize s.base.beginClose = x at hbegun
  obtain he | hbase := hbegun
  · exact .error hs he hw
  · exact .ok ⟨hbase, hs.source, fetched_none⟩ trivial hw

theorem next_kept (hworld : ∀ w, T.World w → ∀ session,
      (w.engine.view session).Provides scan.index.storageTable K)
    (hrow : ∀ key, K key → Yields T.Error V (rowOf scan key)) (ctx : Context) {s : State}
    {w : World} (hs : Kept S scan K s) (hw : T.World w) :
    (next scan ctx s w).Keeps T (Kept S scan K) fun row => ∀ r ∈ row, V r := by
  have hallowed := s.base.checkNext_yields T
  rw [next]
  generalize s.base.checkNext = x at hallowed
  obtain he | _ := hallowed
  · exact .error hs he hw
  · have hchecked := World.check_yields T hw ctx
    dsimp only
    generalize w.check ctx = x at hchecked
    obtain ⟨x, w⟩ := x
    obtain ⟨he | _, hw⟩ := hchecked
    · exact .error hs he hw
    · have hadvanced := advance_kept hworld ctx hw hs.run
      dsimp only
      generalize advance ctx w s.run = x at hadvanced
      obtain ⟨_ | ⟨key, value⟩, run⟩ := x
      · exact .done ⟨hs.base.finish, hs.source, fetched_none⟩ hw
      · obtain ⟨hrun, hkey⟩ := hadvanced
        have hread := T.world_evolves (w.evolves_recordRead 1) hw
        have hyields := hrow key (hkey _ rfl)
        dsimp only
        generalize rowOf scan key = x at hyields
        obtain he | hr := hyields
        · exact .error ⟨hs.base, hs.source, hrun⟩ he hread
        · exact .row ⟨hs.base.hand _, hs.source, hrun⟩ hr hread

theorem upholds (hrange : ∀ env, S env → FailsWith T.Error (scan.keyRange env))
    (hworld : ∀ w, T.World w → ∀ session,
      (w.engine.view session).Provides scan.index.storageTable K)
    (hrow : ∀ key, K key → Yields T.Error V (rowOf scan key)) :
    (machine scan).Upholds T S V fun _ => Kept S scan K where
  evolving := evolving scan
  fresh _ _ hsource := ⟨CursorBase.kept_start _, hsource, fetched_none⟩
  openRun ctx s w hs hw := by
    have hbegun := hs.base.beginOpen (T := T)
    dsimp only [machine]
    rw [openRun]
    generalize s.base.beginOpen = x at hbegun
    obtain he | hbase := hbegun
    · exact .error hs he hw
    · rename_i base
      have htraversal := traversal?_yields (K := K) hrange ctx hbase
      dsimp only
      generalize traversal? scan ctx base = x at htraversal
      obtain he | hrun := htraversal
      · exact .error ⟨hbase.finish, hs.source, hs.run⟩ he hw
      · exact .ok ⟨hbase, hs.source, hrun⟩ trivial hw
  next ctx _ _ hs hw := next_kept hworld hrow ctx hs hw
  closeRun ctx _ _ hs hw := closeRun_kept ctx hs hw
  destroy ctx _ _ hs hw := Leaf.destroy_kept ctx (closeRun_kept ctx hs hw) hs hw
  openBindings ctx _ _ hs hw := Leaf.openBindings_kept ctx hs hw
  nextBindings ctx _ _ hs hw := Leaf.nextBindings_kept ctx hs hw
  closeBindings ctx _ _ hs hw := Leaf.closeBindings_kept ctx hs hw

end IndexScanCursor

/-! ## Operators over an input -/

section

variable {σ : Type} {m : Machine σ} {I : Context → σ → Prop}

namespace SelectCursor

variable {predicate : Expr}

abbrev Kept (S : Env → Prop) (J : σ → Prop) : State σ → Prop := Node.Kept S J fun _ => True

theorem search_kept (hm : m.Upholds T S V I)
    (heval : ∀ env row, S env → V row → FailsWith T.Error (predicate.eval (some row) env))
    (ctx : Context) (fuel : Nat) {s : State σ} {w : World} (hs : Kept S (I ctx) s)
    (hw : T.World w) :
    (search m predicate ctx fuel s w).Keeps T (Kept S (I ctx)) fun row => ∀ r ∈ row, V r := by
  induction fuel generalizing s w with
  | zero => exact .error hs (T.error_operational trivial) hw
  | succ fuel ih =>
      have hnext := Node.onInput_kept (hm.next ctx hs.input hw) hs
      rw [search]
      generalize Node.onInput m.next ctx s w = o at hnext
      obtain ⟨hs, he | hrow, hw⟩ := hnext
      · exact .error hs he hw
      · rename_i s w row
        cases row with
        | none => exact .done ⟨hs.base.finish, hs.input, trivial⟩ hw
        | some row =>
            have hpasses : Yields T.Error (fun _ => True) (passes predicate s.base row) :=
              hs.base.currentEnv.bind fun env henv =>
                (Yields.of_failsWith (heval env row henv (hrow row rfl))).bind fun _ _ =>
                  .ok trivial
            dsimp only
            generalize passes predicate s.base row = x at hpasses
            obtain he | _ := hpasses
            · exact .error hs he hw
            · rename_i passed _
              cases passed with
              | true => exact .row ⟨hs.base.hand _, hs.input, trivial⟩ (hrow row rfl) hw
              | false => exact ih hs hw

theorem upholds (hm : m.Upholds T S V I)
    (heval : ∀ env row, S env → V row → FailsWith T.Error (predicate.eval (some row) env)) :
    (machine m predicate).Upholds T S V fun ctx => Kept S (I ctx) where
  evolving := evolving hm.evolving predicate
  fresh ctx _ hsource := ⟨CursorBase.kept_start _, hm.fresh ctx hsource, trivial⟩
  openRun _ _ _ hs hw := Node.openRun_kept hm (fun _ h => h) hs hw
  next ctx s w hs hw := by
    have hchecked := s.base.checkNext_yields T
    dsimp only [machine]
    rw [next]
    generalize s.base.checkNext = x at hchecked
    obtain he | _ := hchecked
    · exact .error hs he hw
    · exact search_kept hm heval ctx _ hs hw
  closeRun _ _ _ hs hw := Node.closeRun_kept hm (fun _ h => h) hs hw
  destroy _ _ _ hs hw :=
    Node.destroy_kept hm (Node.closeRun_kept hm (fun _ h => h) hs hw) hs hw
  openBindings _ _ _ hs hw := Node.openBindings_kept hm hs hw
  nextBindings _ _ _ hs hw := Node.nextBindings_kept hm hs hw
  closeBindings _ _ _ hs hw := Node.closeBindings_kept hm hs hw

end SelectCursor

namespace ProjectCursor

variable {p : Projection} {U : Row → Prop}

abbrev Kept (S : Env → Prop) (J : σ → Prop) : State σ → Prop := Node.Kept S J fun _ => True

theorem upholds (hm : m.Upholds T S U I)
    (happly : ∀ env row, S env → U row → Yields T.Error V (p.apply env row)) :
    (machine m p).Upholds T S V fun ctx => Kept S (I ctx) where
  evolving := evolving hm.evolving p
  fresh ctx _ hsource := ⟨CursorBase.kept_start _, hm.fresh ctx hsource, trivial⟩
  openRun _ _ _ hs hw := Node.openRun_kept hm (fun _ h => h) hs hw
  next ctx s w hs hw := by
    have hchecked := s.base.checkNext_yields T
    dsimp only [machine]
    rw [next]
    generalize s.base.checkNext = x at hchecked
    obtain he | _ := hchecked
    · exact .error hs he hw
    · have hnext := Node.onInput_kept (hm.next ctx hs.input hw) hs
      dsimp only
      generalize Node.onInput m.next ctx s w = o at hnext
      obtain ⟨hs, he | hrow, hw⟩ := hnext
      · exact .error hs he hw
      · rename_i s w row
        cases row with
        | none => exact .done ⟨hs.base.finish, hs.input, trivial⟩ hw
        | some row =>
            have hyields : Yields T.Error V (rowOf p s.base row) :=
              hs.base.currentEnv.bind fun env henv => happly env row henv (hrow row rfl)
            dsimp only
            generalize rowOf p s.base row = x at hyields
            obtain he | hr := hyields
            · exact .error hs he hw
            · exact .row ⟨hs.base.hand _, hs.input, trivial⟩ hr hw
  closeRun _ _ _ hs hw := Node.closeRun_kept hm (fun _ h => h) hs hw
  destroy _ _ _ hs hw :=
    Node.destroy_kept hm (Node.closeRun_kept hm (fun _ h => h) hs hw) hs hw
  openBindings _ _ _ hs hw := Node.openBindings_kept hm hs hw
  nextBindings _ _ _ hs hw := Node.nextBindings_kept hm hs hw
  closeBindings _ _ _ hs hw := Node.closeBindings_kept hm hs hw

end ProjectCursor

namespace AggregateCursor

/-- What an input row leads to is right. -/
def Step.Kept (T : Terms) (V : Row → Prop) : Step → Prop
  | more => True
  | finished row => ∀ r ∈ row, V r
  | failed e => T.Error e

/-- The grouping keeps `P` of what it holds during a run, if its input rows are of the kind `U`,
and its own rows are of the kind `V`. -/
structure Folds (g : Grouping) (T : Terms) (U V : Row → Prop) (P : Progress → Prop) : Prop where
  start : P .start
  clear : ∀ p, P p → P (clear p)
  ended : ∀ p, P p → P { p with inputDone := true }
  emit : ∀ p, P p → Yields T.Error (fun row => ∀ r ∈ row, V r) (emit g p).1 ∧ P (emit g p).2
  take : ∀ row p, U row → P p → (take g row p).1.Kept T V ∧ P (take g row p).2

variable {g : Grouping} {U : Row → Prop} {P : Progress → Prop}

abbrev Kept (S : Env → Prop) (J : σ → Prop) (P : Progress → Prop) : State σ → Prop :=
  Node.Kept S J P

theorem flush_kept (hg : Folds g T U V P) {J : σ → Prop} {s : State σ} {w : World}
    (hs : Kept S J P s) (hw : T.World w) :
    (flush g s w).Keeps T (Kept S J P) fun row => ∀ r ∈ row, V r := by
  have hemitted := hg.emit s.run hs.run
  rw [flush]
  generalize emit g s.run = x at hemitted
  obtain ⟨row, run⟩ := x
  obtain ⟨he | hrow, hrun⟩ := hemitted
  · exact .error ⟨hs.base, hs.input, hrun⟩ he hw
  · exact .ok ⟨hs.base.hand _, hs.input, hrun⟩ hrow hw

theorem search_kept (hm : m.Upholds T S U I) (hg : Folds g T U V P) (ctx : Context) (fuel : Nat)
    {s : State σ} {w : World} (hs : Kept S (I ctx) P s) (hw : T.World w) :
    (search m g ctx fuel s w).Keeps T (Kept S (I ctx) P) fun row => ∀ r ∈ row, V r := by
  induction fuel generalizing s w with
  | zero => exact .error hs (T.error_operational trivial) hw
  | succ fuel ih =>
      have hnext := Node.onInput_kept (hm.next ctx hs.input hw) hs
      rw [search]
      generalize Node.onInput m.next ctx s w = o at hnext
      obtain ⟨hs, he | hrow, hw⟩ := hnext
      · exact .error hs he hw
      · rename_i s w row
        cases row with
        | none => exact flush_kept hg ⟨hs.base, hs.input, hg.ended _ hs.run⟩ hw
        | some row =>
            have htaken := hg.take row s.run (hrow row rfl) hs.run
            dsimp only
            generalize take g row s.run = x at htaken
            obtain ⟨step, run⟩ := x
            obtain ⟨hstep, hrun⟩ := htaken
            cases step with
            | more => exact ih ⟨hs.base, hs.input, hrun⟩ hw
            | failed e => exact .error ⟨hs.base, hs.input, hrun⟩ hstep hw
            | finished row => exact .ok ⟨hs.base.hand _, hs.input, hrun⟩ hstep hw

theorem upholds (hm : m.Upholds T S U I) (hg : Folds g T U V P) :
    (machine m g).Upholds T S V fun ctx => Kept S (I ctx) P where
  evolving := evolving hm.evolving g
  fresh ctx _ hsource := ⟨CursorBase.kept_start _, hm.fresh ctx hsource, hg.start⟩
  openRun _ _ _ hs hw := Node.openRun_kept hm (fun _ _ => hg.start) hs hw
  next ctx s w hs hw := by
    have hchecked := s.base.checkNext_yields T
    dsimp only [machine]
    rw [next]
    generalize s.base.checkNext = x at hchecked
    obtain he | _ := hchecked
    · exact .error hs he hw
    · dsimp only
      split
      · exact flush_kept hg hs hw
      · exact search_kept hm hg ctx _ hs hw
  closeRun _ _ _ hs hw := Node.closeRun_kept hm hg.clear hs hw
  destroy _ _ _ hs hw := Node.destroy_kept hm (Node.closeRun_kept hm hg.clear hs hw) hs hw
  openBindings _ _ _ hs hw := Node.openBindings_kept hm hs hw
  nextBindings _ _ _ hs hw := Node.nextBindings_kept hm hs hw
  closeBindings _ _ _ hs hw := Node.closeBindings_kept hm hs hw

end AggregateCursor

/-- Only rows that were held before, and the new one, are held after an insertion. -/
theorem Sorting.mem_of_mem_insert {s : Sorting} {held : List Row} {row r : Row}
    (h : r ∈ s.insert held row) : r = row ∨ r ∈ held := by
  rw [insert] at h
  split at h
  · exact .inr h
  · rw [place] at h
    rcases List.mem_append.mp (List.mem_of_mem_take h) with hmem | hmem
    · exact .inr ((List.takeWhile_sublist _).subset hmem)
    · exact (List.mem_cons.mp hmem).imp_right fun hmem => (List.dropWhile_sublist _).subset hmem

namespace SortCursor

variable {sorting : Sorting}

abbrev Kept (S : Env → Prop) (J : σ → Prop) (V : Row → Prop) : State σ → Prop :=
  Node.Kept S J fun rows => ∀ row ∈ rows, V row

theorem fill_kept (hm : m.Upholds T S V I) (ctx : Context) (fuel : Nat) {held : List Row}
    {input : σ} {w : World} (hinput : I ctx input) (hheld : ∀ row ∈ held, V row)
    (hw : T.World w) :
    (fill m sorting ctx fuel held input w).Keeps T (I ctx) fun rows => ∀ row ∈ rows, V row := by
  induction fuel generalizing held input w with
  | zero => exact .error hinput (T.error_operational trivial) hw
  | succ fuel ih =>
      have hnext := hm.next ctx hinput hw
      rw [fill]
      generalize m.next ctx input w = o at hnext
      obtain ⟨hinput, he | hrow, hw⟩ := hnext
      · exact .error hinput he hw
      · rename_i input w row
        cases row with
        | none => exact .ok hinput hheld hw
        | some row =>
            have hchecked := World.check_yields T hw ctx
            dsimp only
            generalize w.check ctx = x at hchecked
            obtain ⟨x, w⟩ := x
            obtain ⟨he | _, hw⟩ := hchecked
            · exact .error hinput he hw
            · refine ih hinput (fun r hr => ?_) hw
              rcases Sorting.mem_of_mem_insert hr with rfl | hmem
              · exact hrow r rfl
              · exact hheld r hmem

theorem sorted_kept (hm : m.Upholds T S V I) (sorting : Sorting) (ctx : Context) {input : σ}
    {w : World} (hinput : I ctx input) (hw : T.World w) :
    (sorted m sorting ctx input w).Keeps T (I ctx) fun rows => ∀ row ∈ rows, V row := by
  rw [sorted]
  split
  · rename_i e hlimit
    refine .error hinput (T.error_operational ?_) hw
    rw [Sorting.checkLimit] at hlimit
    split at hlimit
    · cases hlimit
      trivial
    · cases hlimit
  · have hopened := hm.openRun ctx hinput hw
    dsimp only
    generalize m.openRun ctx input w = o at hopened
    obtain ⟨hinput, he | _, hw⟩ := hopened
    · exact .error hinput he hw
    · exact fill_kept hm ctx _ hinput (List.forall_mem_nil _) hw

theorem closeRun_kept (hm : m.Upholds T S V I) {ctx : Context} {s : State σ} {w : World}
    (hs : Kept S (I ctx) V s) (hw : T.World w) :
    (Node.closeRun m (fun _ => []) ctx s w).Keeps T (Kept S (I ctx) V) fun _ => True :=
  Node.closeRun_kept hm (fun _ _ => List.forall_mem_nil _) hs hw

theorem upholds (hm : m.Upholds T S V I) :
    (machine m sorting).Upholds T S V fun ctx => Kept S (I ctx) V where
  evolving := evolving hm.evolving sorting
  fresh ctx _ hsource :=
    ⟨CursorBase.kept_start _, hm.fresh ctx hsource, List.forall_mem_nil _⟩
  openRun ctx s w hs hw := by
    have hbegun := hs.base.beginOpen (T := T)
    dsimp only [machine]
    rw [openRun]
    generalize s.base.beginOpen = x at hbegun
    obtain he | hbase := hbegun
    · exact .error hs he hw
    · have hsorted := sorted_kept hm sorting ctx hs.input hw
      dsimp only
      generalize sorted m sorting ctx s.input w = o at hsorted
      obtain ⟨hinput, he | hrows, hw⟩ := hsorted
      · exact .error ⟨hbase.finish, hinput, List.forall_mem_nil _⟩ he hw
      · exact .ok ⟨hbase, hinput, hrows⟩ trivial hw
  next ctx s w hs hw := by
    have hchecked := s.base.checkNext_yields T
    dsimp only [machine]
    rw [next]
    generalize s.base.checkNext = x at hchecked
    obtain he | _ := hchecked
    · exact .error hs he hw
    · refine .ok ⟨hs.base.hand _, hs.input, ?_⟩ ?_ hw
      · exact fun row hrow => hs.run row (List.mem_of_mem_tail hrow)
      · exact fun row hrow => hs.run row (List.mem_of_mem_head? hrow)
  closeRun _ _ _ hs hw := closeRun_kept hm hs hw
  destroy _ _ _ hs hw := Node.destroy_kept hm (closeRun_kept hm hs hw) hs hw
  openBindings _ _ _ hs hw := Node.openBindings_kept hm hs hw
  nextBindings _ _ _ hs hw := Node.nextBindings_kept hm hs hw
  closeBindings _ _ _ hs hw := Node.closeBindings_kept hm hs hw

end SortCursor
end
end OrderedQuery
