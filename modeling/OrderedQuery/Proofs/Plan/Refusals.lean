import OrderedQuery.Proofs.Cursor.Groups
import OrderedQuery.Proofs.Cursor.Parallel.Refusals
import OrderedQuery.Proofs.Plan.Finite
import OrderedQuery.Proofs.Plan.Protocol

/-!
# No cursor of a plan refuses another

By induction on the plan its cursor can be opened as soon as all cursors of the tree are idle and
have an environment, and can then be asked for rows, without a refused call anywhere in the tree or
in a worker.  An aggregate function that reports a refused call, though there was none, is left out.
-/

namespace OrderedQuery

/-! ## Operators without input -/

namespace ValuesCursor

theorem openRun_serves (ctx : Context) {s : State} (w : World) (h : Leaf.Ready s) :
    (openRun ctx s w).Serves fun _ s' => Leaf.Running s' := by
  rw [openRun, CursorBase.beginOpen_eq_ok h.1]
  exact .returned rfl

theorem next_serves (rows : List Row) (ctx : Context) {s : State} (w : World)
    (h : Leaf.Running s) :
    (next rows ctx s w).ServesRow Leaf.Running := by
  rw [next, CursorBase.checkNext_eq_ok h]
  refine .handed fun row hrow => ?_
  rw [hrow]
  exact h

theorem cooperates (rows : List Row) :
    (machine rows).Cooperates (fun s => [s.base.state]) Leaf.Ready Leaf.Running where
  ready h := Leaf.noneDestroyed (by rw [h.1]; decide)
  running h := Leaf.noneDestroyed (by rw [h]; decide)
  openRun := openRun_serves
  next := next_serves rows
  closeBindings := Leaf.closeBindings_failsProperly

end ValuesCursor

namespace IndexScanCursor

variable (scan : IndexScan)

theorem traversal?_failsProperly (ctx : Context) {base : CursorBase} (h : base.env ≠ none) :
    FailsProperly (traversal? scan ctx base) :=
  .bind (CursorBase.currentEnv_failsProperly h) fun env =>
    .bind (scan.keyRange_failsOnData env).properly fun _ => .ok _

theorem openRun_serves (ctx : Context) {s : State} (w : World) (h : Leaf.Ready s) :
    (openRun scan ctx s w).Serves fun _ s' => Leaf.Running s' := by
  obtain ⟨hidle, henv⟩ := h
  have hactive : ({ s.base with state := .active } : CursorBase).env ≠ none := henv
  have htraversal := traversal?_failsProperly scan ctx hactive
  rw [openRun, CursorBase.beginOpen_eq_ok hidle]
  dsimp only
  generalize traversal? scan ctx { s.base with state := .active } = x at htraversal
  cases x with
  | error e => exact .failed htraversal.of_error
  | ok run => exact .returned rfl

theorem next_serves (ctx : Context) {s : State} (w : World) (h : Leaf.Running s) :
    (next scan ctx s w).ServesRow Leaf.Running := by
  have hchecked := w.check_failsProperly ctx
  rw [next, CursorBase.checkNext_eq_ok h]
  dsimp only
  generalize w.check ctx = x at hchecked
  obtain ⟨e | _, w'⟩ := x
  · exact .failed hchecked.of_error
  · dsimp only
    obtain ⟨entry, run⟩ := advance ctx w' s.run
    cases entry with
    | none => exact .ended
    | some entry =>
        obtain ⟨key, value⟩ := entry
        have hrow := (rowOf_failsOnData scan key).properly
        dsimp only
        generalize rowOf scan key = x at hrow
        cases x with
        | error e => exact .failed hrow.of_error
        | ok row => exact .handed fun _ _ => h

theorem cooperates :
    (machine scan).Cooperates (fun s => [s.base.state]) Leaf.Ready Leaf.Running where
  ready h := Leaf.noneDestroyed (by rw [h.1]; decide)
  running h := Leaf.noneDestroyed (by rw [h]; decide)
  openRun := openRun_serves scan
  next := next_serves scan
  closeBindings := Leaf.closeBindings_failsProperly

end IndexScanCursor

/-! ## Operators over an input -/

namespace SelectCursor

variable {σ : Type} {m : Machine σ} {tree : σ → List CursorState} {Ready Running : σ → Prop}

theorem passes_failsProperly (predicate : Expr) {base : CursorBase} (h : base.env ≠ none)
    (row : Row) : FailsProperly (passes predicate base row) :=
  .bind (CursorBase.currentEnv_failsProperly h) fun env =>
    .bind (predicate.eval_failsOnData _ env).properly fun _ => .ok _

theorem search_serves (hm : m.Cooperates tree Ready Running) (predicate : Expr) (ctx : Context)
    (fuel : Nat) {s : State σ} (w : World) (h : Node.Running Running s) :
    (search m predicate ctx fuel s w).ServesRow (Node.Running Running) := by
  induction fuel generalizing s w with
  | zero => exact .failed trivial
  | succ fuel ih =>
      obtain ⟨hactive, henv, hinput⟩ := h
      have hnext := hm.next ctx w hinput
      rw [search]
      dsimp only [Node.onInput]
      generalize m.next ctx s.input w = o at hnext
      obtain ⟨e | row, input, w'⟩ := o
      · exact .failed hnext.proper.of_error
      · cases row with
        | none => exact .ended
        | some row =>
            have hinput' := hnext.of_row rfl
            have hpassed := passes_failsProperly predicate henv row
            dsimp only
            generalize passes predicate s.base row = x at hpassed
            cases x with
            | error e => exact .failed hpassed.of_error
            | ok passed =>
                cases passed with
                | true => exact .handed fun _ _ => ⟨hactive, henv, hinput'⟩
                | false => exact ih (s := ⟨s.base, input, s.run⟩) w' ⟨hactive, henv, hinput'⟩

theorem next_serves (hm : m.Cooperates tree Ready Running) (predicate : Expr) (ctx : Context)
    {s : State σ} (w : World) (h : Node.Running Running s) :
    (next m predicate ctx s w).ServesRow (Node.Running Running) := by
  rw [next, CursorBase.checkNext_eq_ok h.1]
  exact search_serves hm predicate ctx _ w h

theorem cooperates (hm : m.Cooperates tree Ready Running) (predicate : Expr) :
    (machine m predicate).Cooperates (Node.treeOf tree) (Node.Ready Ready)
      (Node.Running Running) where
  ready := Node.ready_noneDestroyed hm
  running := Node.running_noneDestroyed hm
  openRun ctx _ w h := (Node.openRun_serves hm id ctx w h).mono fun _ _ hopened => hopened.2
  next := next_serves hm predicate
  closeBindings := Node.closeBindings_failsProperly hm

end SelectCursor

namespace ProjectCursor

variable {σ : Type} {m : Machine σ} {tree : σ → List CursorState} {Ready Running : σ → Prop}

theorem rowOf_failsProperly (p : Projection) {base : CursorBase} (h : base.env ≠ none)
    (row : Row) : FailsProperly (rowOf p base row) :=
  .bind (CursorBase.currentEnv_failsProperly h) fun env => (p.apply_failsOnData env row).properly

theorem next_serves (hm : m.Cooperates tree Ready Running) (p : Projection) (ctx : Context)
    {s : State σ} (w : World) (h : Node.Running Running s) :
    (next m p ctx s w).ServesRow (Node.Running Running) := by
  obtain ⟨hactive, henv, hinput⟩ := h
  have hnext := hm.next ctx w hinput
  rw [next, CursorBase.checkNext_eq_ok hactive]
  dsimp only [Node.onInput]
  generalize m.next ctx s.input w = o at hnext
  obtain ⟨e | row, input, w'⟩ := o
  · exact .failed hnext.proper.of_error
  · cases row with
    | none => exact .ended
    | some row =>
        have hrow := rowOf_failsProperly p henv row
        dsimp only
        generalize rowOf p s.base row = x at hrow
        cases x with
        | error e => exact .failed hrow.of_error
        | ok row => exact .handed fun _ _ => ⟨hactive, henv, hnext.of_row rfl⟩

theorem cooperates (hm : m.Cooperates tree Ready Running) (p : Projection) :
    (machine m p).Cooperates (Node.treeOf tree) (Node.Ready Ready) (Node.Running Running) where
  ready := Node.ready_noneDestroyed hm
  running := Node.running_noneDestroyed hm
  openRun ctx _ w h := (Node.openRun_serves hm id ctx w h).mono fun _ _ hopened => hopened.2
  next := next_serves hm p
  closeBindings := Node.closeBindings_failsProperly hm

end ProjectCursor

/-- No function that is called reports a refused call. -/
def Grouping.Proper (g : Grouping) : Prop :=
  ∀ c ∈ g.calls, ∀ state v, FailsProperly (c.function.update state v).1

namespace AggregateCursor

variable {σ : Type} {m : Machine σ} {name : String} {tree : σ → List CursorState}
  {InputReady InputRunning : σ → Prop} {g : Grouping}

/-- A grouping that can be asked for a row; it does not ask its input once that has ended. -/
def Running (tree : σ → List CursorState) (InputRunning : σ → Prop) (s : State σ) : Prop :=
  s.base.state = .active ∧ NoneDestroyed (tree s.input) ∧
    (s.run.inputDone = false → InputRunning s.input)

theorem flush_serves (g : Grouping) {s : State σ} (w : World) (hs : s.base.state = .active)
    (hinput : NoneDestroyed (tree s.input)) (hdone : s.run.inputDone = true) :
    (flush g s w).ServesRow (Running tree InputRunning) := by
  have hemitted := (emit_failsOnData g s.run).properly
  have hkept := (inputDone_emit (g := g) s.run).trans hdone
  rw [flush]
  generalize emit g s.run = x at hemitted hkept
  obtain ⟨e | row, run⟩ := x
  · exact .failed hemitted.of_error
  · refine .handed ?_
    rintro row' rfl
    refine ⟨hs, hinput, fun hmore => ?_⟩
    cases hkept.symm.trans hmore

theorem search_serves (hm : m.Obeys name tree) (hin : m.Cooperates tree InputReady InputRunning)
    (hg : g.Proper) (ctx : Context) (fuel : Nat) {s : State σ} (w : World)
    (hs : s.base.state = .active) (hinput : InputRunning s.input) :
    (search m g ctx fuel s w).ServesRow (Running tree InputRunning) := by
  induction fuel generalizing s w with
  | zero => exact .failed trivial
  | succ fuel ih =>
      have hnext := hin.next ctx w hinput
      have hkept : NoneDestroyed (tree (m.next ctx s.input w).state) :=
        hm.keeps .next ctx s.input w (by decide) (hin.running hinput)
      rw [search]
      dsimp only [Node.onInput]
      generalize m.next ctx s.input w = o at hnext hkept
      obtain ⟨e | row, input, w'⟩ := o
      · exact .failed hnext.proper.of_error
      · cases row with
        | none => exact flush_serves g w' hs hkept rfl
        | some row =>
            have hinput' := hnext.of_row rfl
            have htaken := take_failsWith (fun _ he => he.proper) hg row s.run
            dsimp only
            generalize take g row s.run = x at htaken
            obtain ⟨step, run⟩ := x
            cases step with
            | more => exact ih w' hs hinput'
            | finished row =>
                refine .handed ?_
                rintro row' rfl
                exact ⟨hs, hkept, fun _ => hinput'⟩
            | failed e => exact .failed (htaken e rfl)

theorem next_serves (hm : m.Obeys name tree) (hin : m.Cooperates tree InputReady InputRunning)
    (hg : g.Proper) (ctx : Context) {s : State σ} (w : World)
    (h : Running tree InputRunning s) :
    (next m g ctx s w).ServesRow (Running tree InputRunning) := by
  obtain ⟨hactive, hinput, hrunning⟩ := h
  rw [next, CursorBase.checkNext_eq_ok hactive]
  dsimp only
  by_cases hdone : s.run.inputDone = true
  · rw [if_pos hdone]
    exact flush_serves g w hactive hinput hdone
  · rw [if_neg hdone]
    exact search_serves hm hin hg ctx _ w hactive (hrunning (Bool.eq_false_iff.mpr hdone))

theorem cooperates (hm : m.Obeys name tree) (hin : m.Cooperates tree InputReady InputRunning)
    (hg : g.Proper) :
    (machine m g).Cooperates (Node.treeOf tree) (Node.Ready InputReady)
      (Running tree InputRunning) where
  ready := Node.ready_noneDestroyed hin
  running h := Node.noneDestroyed_treeOf.mpr ⟨by rw [h.1]; decide, h.2.1⟩
  openRun ctx _ w h := by
    refine (Node.openRun_serves hin (fun _ => .start) ctx w h).mono ?_
    rintro _ s' ⟨-, hactive, -, hinput⟩
    exact ⟨hactive, hin.running hinput, fun _ => hinput⟩
  next := next_serves hm hin hg
  closeBindings := Node.closeBindings_failsProperly hin

end AggregateCursor

namespace SortCursor

variable {σ : Type} {m : Machine σ} {name : String} {tree : σ → List CursorState}
  {InputReady InputRunning : σ → Prop}

/-- A sort that can be asked for a row; it does not ask its input. -/
def Running (tree : σ → List CursorState) (s : State σ) : Prop :=
  s.base.state = .active ∧ NoneDestroyed (tree s.input)

theorem fill_serves (hm : m.Obeys name tree) (hin : m.Cooperates tree InputReady InputRunning)
    (sorting : Sorting) (ctx : Context) (fuel : Nat) (held : List Row) {input : σ} (w : World)
    (h : InputRunning input) :
    (fill m sorting ctx fuel held input w).Serves fun _ input' => NoneDestroyed (tree input') := by
  induction fuel generalizing held input w with
  | zero => exact .failed trivial
  | succ fuel ih =>
      have hnext := hin.next ctx w h
      have hkept : NoneDestroyed (tree (m.next ctx input w).state) :=
        hm.keeps .next ctx input w (by decide) (hin.running h)
      rw [fill]
      generalize m.next ctx input w = o at hnext hkept
      obtain ⟨e | row, input', w'⟩ := o
      · exact .failed hnext.proper.of_error
      · cases row with
        | none => exact .returned hkept
        | some row =>
            have hchecked := w'.check_failsProperly ctx
            dsimp only
            generalize w'.check ctx = x at hchecked
            obtain ⟨e | _, w''⟩ := x
            · exact .failed hchecked.of_error
            · exact ih _ w'' (hnext.of_row rfl)

theorem sorted_serves (hm : m.Obeys name tree) (hin : m.Cooperates tree InputReady InputRunning)
    (sorting : Sorting) (ctx : Context) {input : σ} (w : World) (h : InputReady input) :
    (sorted m sorting ctx input w).Serves fun _ input' => NoneDestroyed (tree input') := by
  have hlimit := (sorting.checkLimit_failsOnData ctx.config.maxRowsInMemory).properly
  have hopened := hin.openRun ctx w h
  rw [sorted]
  generalize sorting.checkLimit ctx.config.maxRowsInMemory = x at hlimit
  cases x with
  | error e => exact .failed hlimit.of_error
  | ok _ =>
      dsimp only
      generalize m.openRun ctx input w = o at hopened
      obtain ⟨e | _, input', w'⟩ := o
      · exact .failed hopened.proper.of_error
      · exact fill_serves hm hin sorting ctx _ [] w' (hopened.returns _ rfl)

theorem openRun_serves (hm : m.Obeys name tree) (hin : m.Cooperates tree InputReady InputRunning)
    (sorting : Sorting) (ctx : Context) {s : State σ} (w : World) (h : Node.Ready InputReady s) :
    (openRun m sorting ctx s w).Serves fun _ s' => Running tree s' := by
  obtain ⟨hidle, -, hinput⟩ := h
  have hsorted := sorted_serves hm hin sorting ctx w hinput
  rw [openRun, CursorBase.beginOpen_eq_ok hidle]
  dsimp only
  generalize sorted m sorting ctx s.input w = o at hsorted
  obtain ⟨e | rows, input, w'⟩ := o
  · exact .failed hsorted.proper.of_error
  · exact .returned ⟨rfl, hsorted.returns _ rfl⟩

theorem next_serves (ctx : Context) {s : State σ} (w : World) (h : Running tree s) :
    (next ctx s w).ServesRow (Running tree) := by
  rw [next, CursorBase.checkNext_eq_ok h.1]
  refine .handed fun row hrow => ?_
  rw [hrow]
  exact h

theorem cooperates (hm : m.Obeys name tree) (hin : m.Cooperates tree InputReady InputRunning)
    (sorting : Sorting) :
    (machine m sorting).Cooperates (Node.treeOf tree) (Node.Ready InputReady) (Running tree) where
  ready := Node.ready_noneDestroyed hin
  running h := Node.noneDestroyed_treeOf.mpr ⟨by rw [h.1]; decide, h.2⟩
  openRun := openRun_serves hm hin sorting
  next := next_serves
  closeBindings := Node.closeBindings_failsProperly hin

end SortCursor

/-! ## Plans -/

namespace Plan

/-- No aggregate function of a plan reports a refused call. -/
def Proper : Plan → Prop
  | values .. | scan _ => True
  | aggregate input g => input.Proper ∧ g.Proper
  | select input _ | project input _ | sort input _ | map input _ => input.Proper

/-- The environments that the cursors of a plan have been given, that of the root first. -/
def envs : (p : Plan) → p.State → List (Option Env)
  | values .. => fun s : ValuesCursor.State => [s.base.env]
  | scan _ => fun s : IndexScanCursor.State => [s.base.env]
  | select input _ => fun s : SelectCursor.State _ => s.base.env :: input.envs s.input
  | project input _ => fun s : ProjectCursor.State _ => s.base.env :: input.envs s.input
  | aggregate input _ => fun s : AggregateCursor.State _ => s.base.env :: input.envs s.input
  | sort input _ => fun s : SortCursor.State _ => s.base.env :: input.envs s.input
  | map input _ => fun s : ParallelCursor.State input.State => [s.base.env]

/-- A tree of cursors that can be opened. -/
def Ready : (p : Plan) → p.State → Prop
  | values .. => fun s : ValuesCursor.State => Leaf.Ready s
  | scan _ => fun s : IndexScanCursor.State => Leaf.Ready s
  | select input _ => Node.Ready input.Ready
  | project input _ => Node.Ready input.Ready
  | aggregate input _ => Node.Ready input.Ready
  | sort input _ => Node.Ready input.Ready
  | map input _ => fun s : ParallelCursor.State input.State => Leaf.Ready s

/-- A tree of cursors that can be asked for a row. -/
def Running : (p : Plan) → p.State → Prop
  | values .. => fun s : ValuesCursor.State => Leaf.Running s
  | scan _ => fun s : IndexScanCursor.State => Leaf.Running s
  | select input _ => Node.Running input.Running
  | project input _ => Node.Running input.Running
  | aggregate input _ => AggregateCursor.Running input.states input.Running
  | sort input _ => SortCursor.Running input.states
  | map input _ => ParallelCursor.Regular input.cursor input.states input.Running

theorem ready_iff {p : Plan} {s : p.State} :
    p.Ready s ↔ (∀ t ∈ p.states s, t = .idle) ∧ ∀ env ∈ p.envs s, env ≠ none := by
  induction p with
  | values | scan | map =>
      show _ ∧ _ ↔ (∀ t ∈ [_], t = CursorState.idle) ∧ ∀ env ∈ [_], env ≠ none
      rw [List.forall_mem_singleton, List.forall_mem_singleton]
  | select _ _ ih | project _ _ ih | aggregate _ _ ih | sort _ _ ih =>
      show _ ∧ _ ∧ _ ↔ (∀ t ∈ _ :: _, t = CursorState.idle) ∧ ∀ env ∈ _ :: _, env ≠ none
      rw [ih, List.forall_mem_cons, List.forall_mem_cons, ← and_assoc]
      exact and_and_and_comm

theorem ready_of_idle {p : Plan} {source : BindingSource} {env : Env} {s : p.State}
    (h : p.Idle source (some env) s) : p.Ready s := by
  have hsome : ∀ {b : CursorBase}, b.env = some env → b.env ≠ none := by
    intro b hb
    rw [hb]
    exact nofun
  induction p with
  | values type rows => exact ⟨h.1, hsome h.2.1⟩
  | scan scan => exact ⟨h.1, hsome h.2.1⟩
  | select input predicate ih => exact ⟨h.1, hsome h.2.1, ih h.2.2⟩
  | project input p ih => exact ⟨h.1, hsome h.2.1, ih h.2.2⟩
  | aggregate input g ih => exact ⟨h.1, hsome h.2.1, ih h.2.2⟩
  | sort input sorting ih => exact ⟨h.1, hsome h.2.1, ih h.2.2⟩
  | map input p ih => exact ⟨h.1, hsome h.2.1⟩

theorem cursor_cooperates {p : Plan} (hp : p.Proper) :
    p.cursor.Cooperates p.states p.Ready p.Running := by
  induction p with
  | values type rows => exact ValuesCursor.cooperates rows
  | scan scan => exact IndexScanCursor.cooperates scan
  | select input predicate ih => exact SelectCursor.cooperates (ih hp) predicate
  | project input p ih => exact ProjectCursor.cooperates (ih hp) p
  | aggregate input g ih => exact AggregateCursor.cooperates input.cursor_obeys (ih hp.1) hp.2
  | sort input sorting ih => exact SortCursor.cooperates input.cursor_obeys (ih hp) sorting
  | map input p ih =>
      exact ParallelCursor.cooperates
        ⟨input.cursor_obeys, ih hp, input.supply, fun _ _ _ => ready_of_idle⟩ p

end Plan
end OrderedQuery
