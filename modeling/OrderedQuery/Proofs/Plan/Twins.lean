import OrderedQuery.Plan.Cursor
import OrderedQuery.Proofs.Cursor.Twins

/-!
# No cursor of a plan can tell twins apart

What an operator does depends on the state and the environment of its cursor, on its input and,
while it is open, on what it keeps for the run.  By induction on the plan its cursor cannot tell
twins apart.  The run of a parallel map is made when it is opened, so that of twins is the same.
-/

namespace OrderedQuery

/-! ## Operators without input -/

namespace ValuesCursor

variable {env : Option Env} {source source' : BindingSource}

/-- Only an open cursor looks at its place. -/
abbrev Twin : Kinship State := Leaf.Twin "Values" (· = .active)

theorem openRun_respects : openRun.Respects (Twin env source source') := by
  intro ctx s s' h w
  by_cases hidle : s.base.state = .idle
  · rw [openRun, openRun, CursorBase.beginOpen_eq_ok hidle,
      CursorBase.beginOpen_eq_ok (h.base.state.trans hidle)]
    exact .intro _ (h.go h.base.active _) w
  · rw [openRun, openRun, CursorBase.beginOpen_eq_error hidle,
      CursorBase.beginOpen_eq_error fun hs => hidle (h.base.state.symm.trans hs),
      h.base.violation]
    exact .intro _ h w

theorem next_respects (rows : List Row) : (next rows).Respects (Twin env source source') := by
  intro ctx s s' h w
  rw [next, next, h.base.checkNext]
  by_cases hactive : s.base.state = .active
  · rw [CursorBase.checkNext_eq_ok hactive, h.run hactive]
    exact .intro _ (h.go (h.base.hand _) _) w
  · rw [CursorBase.checkNext_eq_error hactive]
    exact .intro _ h w

theorem twins (rows : List Row) : (machine rows).Twins (Twin env source source') where
  openRun := openRun_respects
  next := next_respects rows
  closeRun := Leaf.closeInPlace_respects id nofun
  pending := by
    intro ctx s s' h w
    dsimp only [machine]
    rw [h.base.state]
    split
    · rename_i hactive
      rw [h.run hactive]
    · rfl

end ValuesCursor

namespace IndexScanCursor

variable {env : Option Env} {source source' : BindingSource} (scan : IndexScan)

/-- Only an open cursor looks at its traversal. -/
abbrev Twin : Kinship State := Leaf.Twin "IndexScan" (· = .active)

theorem traversal?_congr {ctx : Context} {b b' : CursorBase}
    (h : CursorBase.Alike "IndexScan" env b b') :
    traversal? scan ctx b' = traversal? scan ctx b := by
  rw [traversal?, traversal?, h.currentEnv]

theorem openRun_respects : (openRun scan).Respects (Twin env source source') := by
  intro ctx s s' h w
  by_cases hidle : s.base.state = .idle
  · have hactive := h.base.active
    rw [openRun, openRun, CursorBase.beginOpen_eq_ok hidle,
      CursorBase.beginOpen_eq_ok (h.base.state.trans hidle)]
    dsimp only
    rw [traversal?_congr scan hactive]
    cases traversal? scan ctx { s.base with state := .active } with
    | error e => exact .intro _ ⟨hactive.finish, h.left, h.right, nofun⟩ w
    | ok run => exact .intro _ (h.go hactive run) w
  · rw [openRun, openRun, CursorBase.beginOpen_eq_error hidle,
      CursorBase.beginOpen_eq_error fun hs => hidle (h.base.state.symm.trans hs),
      h.base.violation]
    exact .intro _ h w

theorem next_respects : (next scan).Respects (Twin env source source') := by
  intro ctx s s' h w
  rw [next, next, h.base.checkNext]
  by_cases hactive : s.base.state = .active
  · rw [CursorBase.checkNext_eq_ok hactive, h.run hactive]
    dsimp only
    obtain ⟨checked, w'⟩ := w.check ctx
    cases checked with
    | error e => exact .intro _ h w'
    | ok _ =>
        dsimp only
        obtain ⟨entry, run⟩ := advance ctx w' s.run
        cases entry with
        | none => exact .intro _ (h.go h.base.finish none) w'
        | some entry =>
            dsimp only
            cases rowOf scan entry.1 with
            | error e => exact .intro _ (h.go h.base run) _
            | ok row => exact .intro _ (h.go (h.base.hand (some row)) run) _
  · rw [CursorBase.checkNext_eq_error hactive]
    exact .intro _ h w

theorem twins : (machine scan).Twins (Twin env source source') where
  openRun := openRun_respects scan
  next := next_respects scan
  closeRun := Leaf.closeInPlace_respects (fun _ => none) nofun
  pending := by
    intro ctx s s' h w
    dsimp only [machine, pending]
    rw [h.base.state]
    split
    · rename_i hactive
      rw [h.run hactive]
    · rfl

end IndexScanCursor

namespace ParallelCursor

variable {σ : Type} {env : Option Env} {source source' : BindingSource} (m : Machine σ)

/-- Twins have the same workers. -/
abbrev Twin : Kinship (State σ) := Leaf.Twin "MapParallel" fun _ => True

theorem startRun_congr (p : Partitioning) {ctx : Context} {b b' : CursorBase}
    (h : CursorBase.Alike "MapParallel" env b b') (w : World) :
    startRun m p ctx b' w = startRun m p ctx b w := by
  rw [startRun, startRun, h.currentEnv]

theorem openRun_respects (p : Partitioning) :
    (openRun m p).Respects (Twin env source source') := by
  intro ctx s s' h w
  by_cases hidle : s.base.state = .idle
  · have hactive := h.base.active
    rw [openRun, openRun, CursorBase.beginOpen_eq_ok hidle,
      CursorBase.beginOpen_eq_ok (h.base.state.trans hidle)]
    dsimp only
    rw [startRun_congr m p hactive]
    obtain ⟨started, w'⟩ := startRun m p ctx { s.base with state := .active } w
    cases started with
    | error e => exact .intro _ ⟨hactive.finish, h.left, h.right, h.run⟩ w'
    | ok run => exact .intro _ (h.go hactive _) w'
  · rw [openRun, openRun, CursorBase.beginOpen_eq_error hidle,
      CursorBase.beginOpen_eq_error fun hs => hidle (h.base.state.symm.trans hs),
      h.base.violation]
    exact .intro _ h w

theorem fail_alike {s s' : State σ} (h : Twin env source source' s s') (e : QueryError)
    (w : World) : (fail m s e w).Alike (Twin env source source') (fail m s' e w) := by
  rw [fail, fail, h.run trivial]
  cases s.run with
  | none => exact .intro _ h w
  | some r => exact .intro _ (h.go h.base none) _

theorem complete_alike {s s' : State σ} (h : Twin env source source' s s') (r : Run σ)
    (w : World) : (complete m s r w).Alike (Twin env source source') (complete m s' r w) := by
  rw [complete, complete]
  obtain ⟨r', w'⟩ := r.shutdown m w
  dsimp only
  cases r'.verdict with
  | error e => exact .intro _ (h.go h.base none) w'
  | ok _ => exact .intro _ (h.go h.base.finish none) w'

theorem receive_alike (ctx : Context) (fuel : Nat) {s s' : State σ}
    (h : Twin env source source' s s') (w : World) :
    (receive m ctx fuel s w).Alike (Twin env source source') (receive m ctx fuel s' w) := by
  induction fuel generalizing s s' w with
  | zero => exact .intro _ h w
  | succ fuel ih =>
      rw [receive, receive, h.run trivial]
      obtain ⟨checked, w'⟩ := w.check ctx
      cases checked with
      | error e => exact fail_alike m h e w'
      | ok _ =>
          dsimp only
          cases s.run with
          | none => exact .intro _ (h.go h.base.finish none) w'
          | some r =>
              have hrun (r' : Run σ) := h.go h.base (some r')
              dsimp only
              split
              · exact complete_alike m h r w'
              · obtain ⟨receipt, r', w''⟩ := r.await m w'
                cases receipt with
                | message message =>
                    cases message with
                    | row worker row =>
                        exact .intro _ (h.go (h.base.hand (some row)) _) _
                    | finished worker => exact ih (hrun _) w''
                    | failed worker e => exact fail_alike m (hrun _) e w''
                | disconnected => exact fail_alike m (hrun _) _ w''
                | timeout => exact ih (hrun _) w''
                | stalled => exact .intro _ (hrun _) w''

theorem next_respects : (next m).Respects (Twin env source source') := by
  intro ctx s s' h w
  rw [next, next, h.base.checkNext, patience, patience, h.run trivial]
  cases s.base.checkNext with
  | error e => exact .intro _ h w
  | ok _ => exact receive_alike m ctx _ h w

theorem closeRun_respects : (closeRun m).Respects (Twin env source source') := by
  intro ctx s s' h w
  rw [closeRun, closeRun, CursorBase.beginClose_eq_ok h.base.left.live,
    CursorBase.beginClose_eq_ok h.base.right.live, h.run trivial]
  dsimp only
  cases s.run with
  | none => exact .intro _ (h.go h.base.idle none) w
  | some r => exact .intro _ (h.go h.base.idle none) _

theorem twins (p : Partitioning) : (machine m p).Twins (Twin env source source') where
  openRun := openRun_respects m p
  next := next_respects m
  closeRun := closeRun_respects m
  pending := by
    intro ctx s s' h w
    dsimp only [machine, pending]
    rw [h.base.state, h.run trivial]

end ParallelCursor

/-! ## Operators over an input -/

namespace SelectCursor

variable {σ : Type} {m : Machine σ} {env : Option Env} {R : σ → σ → Prop}

abbrev Twin : Option Env → (σ → σ → Prop) → State σ → State σ → Prop := Node.Twin "Select"

theorem passes_congr (predicate : Expr) {b b' : CursorBase}
    (h : CursorBase.Alike "Select" env b b') (row : Row) :
    passes predicate b' row = passes predicate b row := by
  rw [passes, passes, h.currentEnv]

theorem search_alike (hm : m.Twins R) (predicate : Expr) (ctx : Context) (fuel : Nat)
    {s s' : State σ} (h : Twin env R s s') (w : World) :
    (search m predicate ctx fuel s w).Alike (Twin env R) (search m predicate ctx fuel s' w) := by
  induction fuel generalizing s s' w with
  | zero => exact .intro _ h w
  | succ fuel ih =>
      obtain ⟨hbase, hinput, -⟩ := h
      have hnext := hm.next ctx hinput w
      have hover {input input' : σ} (h : R input input') :
          Twin env R { s with input } { s' with input := input' } := ⟨hbase, h, fun _ => rfl⟩
      rw [search, search]
      dsimp only [Node.onInput]
      generalize m.next ctx s.input w = o, m.next ctx s'.input w = o' at hnext
      obtain ⟨result, hnext, w'⟩ := hnext
      cases result with
      | error e => exact .intro _ (hover hnext) w'
      | ok row =>
          cases row with
          | none => exact .intro _ ⟨hbase.finish, hnext, fun _ => rfl⟩ w'
          | some row =>
              dsimp only
              rw [passes_congr predicate hbase]
              cases passes predicate s.base row with
              | error e => exact .intro _ (hover hnext) w'
              | ok passed =>
                  cases passed with
                  | true => exact .intro _ ⟨hbase.hand (some row), hnext, fun _ => rfl⟩ w'
                  | false => exact ih (hover hnext) w'

theorem next_respects (hm : m.Twins R) (predicate : Expr) :
    (next m predicate).Respects (Twin env R) := by
  intro ctx s s' h w
  rw [next, next, h.base.checkNext, hm.pending ctx h.input]
  cases s.base.checkNext with
  | error e => exact .intro _ h w
  | ok _ => exact search_alike hm predicate ctx _ h w

theorem twins (hm : m.Twins R) (predicate : Expr) : (machine m predicate).Twins (Twin env R) where
  openRun := Node.openRun_respects hm id fun _ _ => rfl
  next := next_respects hm predicate
  closeRun := Node.closeRun_respects hm id
  pending ctx _ _ h w := hm.pending ctx h.input w

end SelectCursor

namespace ProjectCursor

variable {σ : Type} {m : Machine σ} {env : Option Env} {R : σ → σ → Prop}

abbrev Twin : Option Env → (σ → σ → Prop) → State σ → State σ → Prop := Node.Twin "Project"

theorem rowOf_congr (p : Projection) {b b' : CursorBase}
    (h : CursorBase.Alike "Project" env b b') (row : Row) : rowOf p b' row = rowOf p b row := by
  rw [rowOf, rowOf, h.currentEnv]

theorem next_respects (hm : m.Twins R) (p : Projection) :
    (next m p).Respects (Twin env R) := by
  intro ctx s s' h w
  rw [next, next, h.base.checkNext]
  cases s.base.checkNext with
  | error e => exact .intro _ h w
  | ok _ =>
      obtain ⟨hbase, hinput, -⟩ := h
      have hnext := hm.next ctx hinput w
      dsimp only [Node.onInput]
      generalize m.next ctx s.input w = o, m.next ctx s'.input w = o' at hnext
      obtain ⟨result, hnext, w'⟩ := hnext
      cases result with
      | error e => exact .intro _ ⟨hbase, hnext, fun _ => rfl⟩ w'
      | ok row =>
          cases row with
          | none => exact .intro _ ⟨hbase.finish, hnext, fun _ => rfl⟩ w'
          | some row =>
              dsimp only
              rw [rowOf_congr p hbase]
              cases rowOf p s.base row with
              | error e => exact .intro _ ⟨hbase, hnext, fun _ => rfl⟩ w'
              | ok out => exact .intro _ ⟨hbase.hand (some out), hnext, fun _ => rfl⟩ w'

theorem twins (hm : m.Twins R) (p : Projection) : (machine m p).Twins (Twin env R) where
  openRun := Node.openRun_respects hm id fun _ _ => rfl
  next := next_respects hm p
  closeRun := Node.closeRun_respects hm id
  pending ctx _ _ h w := hm.pending ctx h.input w

end ProjectCursor

namespace AggregateCursor

variable {σ : Type} {m : Machine σ} {env : Option Env} {R : σ → σ → Prop}

abbrev Twin : Option Env → (σ → σ → Prop) → State σ → State σ → Prop := Node.Twin "Aggregate"

theorem flush_alike (g : Grouping) {s s' : State σ} (h : Twin env R s s')
    (hrun : s'.run = s.run) (w : World) : (flush g s w).Alike (Twin env R) (flush g s' w) := by
  rw [flush, flush, hrun]
  obtain ⟨emitted, run⟩ := emit g s.run
  cases emitted with
  | error e => exact .intro _ ⟨h.base, h.input, fun _ => rfl⟩ w
  | ok row => exact .intro _ ⟨h.base.hand row, h.input, fun _ => rfl⟩ w

theorem search_alike (hm : m.Twins R) (g : Grouping) (ctx : Context) (fuel : Nat)
    {s s' : State σ} (h : Twin env R s s') (hrun : s'.run = s.run) (w : World) :
    (search m g ctx fuel s w).Alike (Twin env R) (search m g ctx fuel s' w) := by
  induction fuel generalizing s s' w with
  | zero => exact .intro _ h w
  | succ fuel ih =>
      obtain ⟨hbase, hinput, -⟩ := h
      have hnext := hm.next ctx hinput w
      have hover {input input' : σ} (h : R input input') (run : Progress) :
          Twin env R { s with input, run } { s' with input := input', run } :=
        ⟨hbase, h, fun _ => rfl⟩
      rw [search, search]
      dsimp only [Node.onInput]
      rw [hrun]
      generalize m.next ctx s.input w = o, m.next ctx s'.input w = o' at hnext
      obtain ⟨result, hnext, w'⟩ := hnext
      cases result with
      | error e => exact .intro _ ⟨hbase, hnext, fun _ => rfl⟩ w'
      | ok row =>
          cases row with
          | none => exact flush_alike g (hover hnext _) rfl w'
          | some row =>
              dsimp only
              obtain ⟨step, run⟩ := take g row s.run
              cases step with
              | more => exact ih (hover hnext run) rfl w'
              | failed e => exact .intro _ (hover hnext run) w'
              | finished row => exact .intro _ ⟨hbase.hand row, hnext, fun _ => rfl⟩ w'

theorem next_respects (hm : m.Twins R) (g : Grouping) : (next m g).Respects (Twin env R) := by
  intro ctx s s' h w
  rw [next, next, h.base.checkNext, searchLimit, searchLimit, hm.pending ctx h.input]
  by_cases hactive : s.base.state = .active
  · have hrun := h.run hactive
    rw [CursorBase.checkNext_eq_ok hactive, hrun]
    dsimp only
    split
    · exact flush_alike g h hrun w
    · exact search_alike hm g ctx _ h hrun w
  · rw [CursorBase.checkNext_eq_error hactive]
    exact .intro _ h w

theorem twins (hm : m.Twins R) (g : Grouping) : (machine m g).Twins (Twin env R) where
  openRun := Node.openRun_respects hm (fun _ => Progress.start) fun _ _ => rfl
  next := next_respects hm g
  closeRun := Node.closeRun_respects hm clear
  pending := by
    intro ctx s s' h w
    dsimp only [machine, pending]
    rw [h.base.state, hm.pending ctx h.input]
    cases hstate : s.base.state with
    | active => rw [h.run hstate]
    | idle => rfl
    | destroyed => rfl

end AggregateCursor

namespace SortCursor

variable {σ : Type} {m : Machine σ} {env : Option Env} {R : σ → σ → Prop}

abbrev Twin : Option Env → (σ → σ → Prop) → State σ → State σ → Prop := Node.Twin "Sort"

theorem fill_alike (hm : m.Twins R) (sorting : Sorting) (ctx : Context) (fuel : Nat)
    (held : List Row) {input input' : σ} (h : R input input') (w : World) :
    (fill m sorting ctx fuel held input w).Alike R (fill m sorting ctx fuel held input' w) := by
  induction fuel generalizing held input input' w with
  | zero => exact .intro _ h w
  | succ fuel ih =>
      have hnext := hm.next ctx h w
      rw [fill, fill]
      generalize m.next ctx input w = o, m.next ctx input' w = o' at hnext
      obtain ⟨result, hnext, w'⟩ := hnext
      cases result with
      | error e => exact .intro _ hnext w'
      | ok row =>
          cases row with
          | none => exact .intro _ hnext w'
          | some row =>
              dsimp only
              obtain ⟨checked, w''⟩ := w'.check ctx
              cases checked with
              | error e => exact .intro _ hnext w''
              | ok _ => exact ih _ hnext w''

theorem sorted_alike (hm : m.Twins R) (sorting : Sorting) : (sorted m sorting).Respects R := by
  intro ctx input input' h w
  rw [sorted, sorted]
  cases sorting.checkLimit ctx.config.maxRowsInMemory with
  | error e => exact .intro _ h w
  | ok _ =>
      have hopened := hm.openRun ctx h w
      dsimp only
      generalize m.openRun ctx input w = o, m.openRun ctx input' w = o' at hopened
      obtain ⟨result, hopened, w'⟩ := hopened
      cases result with
      | error e => exact .intro _ hopened w'
      | ok _ =>
          dsimp only
          rw [hm.pending ctx hopened]
          exact fill_alike hm sorting ctx _ [] hopened w'

theorem openRun_respects (hm : m.Twins R) (sorting : Sorting) :
    (openRun m sorting).Respects (Twin env R) := by
  intro ctx s s' h w
  obtain ⟨hbase, hinput, hkept⟩ := h
  by_cases hidle : s.base.state = .idle
  · have hsorted := sorted_alike hm sorting ctx hinput w
    rw [openRun, openRun, CursorBase.beginOpen_eq_ok hidle,
      CursorBase.beginOpen_eq_ok (hbase.state.trans hidle)]
    dsimp only
    generalize sorted m sorting ctx s.input w = o, sorted m sorting ctx s'.input w = o' at hsorted
    obtain ⟨result, hsorted, w'⟩ := hsorted
    cases result with
    | error e => exact .intro _ ⟨hbase.active.finish, hsorted, fun _ => rfl⟩ w'
    | ok rows => exact .intro _ ⟨hbase.active, hsorted, fun _ => rfl⟩ w'
  · rw [openRun, openRun, CursorBase.beginOpen_eq_error hidle,
      CursorBase.beginOpen_eq_error fun hs => hidle (hbase.state.symm.trans hs), hbase.violation]
    exact .intro _ ⟨hbase, hinput, hkept⟩ w

theorem next_respects : (next (σ := σ)).Respects (Twin env R) := by
  intro ctx s s' h w
  rw [next, next, h.base.checkNext]
  by_cases hactive : s.base.state = .active
  · rw [CursorBase.checkNext_eq_ok hactive, h.run hactive]
    exact .intro _ ⟨h.base.hand _, h.input, fun _ => rfl⟩ w
  · rw [CursorBase.checkNext_eq_error hactive]
    exact .intro _ h w

theorem twins (hm : m.Twins R) (sorting : Sorting) : (machine m sorting).Twins (Twin env R) where
  openRun := openRun_respects hm sorting
  next := next_respects
  closeRun := Node.closeRun_respects hm fun _ => []
  pending := by
    intro ctx s s' h w
    dsimp only [machine, pending]
    rw [h.base.state, hm.pending ctx h.input]
    cases hstate : s.base.state with
    | active => rw [h.run hstate]
    | idle => rfl
    | destroyed => rfl

end SortCursor

/-! ## Plans -/

namespace Plan

/-- Trees of cursors that differ only in what no further run looks at. -/
def Twin : (p : Plan) → Kinship p.State
  | values .. => ValuesCursor.Twin
  | scan _ => IndexScanCursor.Twin
  | select input _ => Node.kinship "Select" input.Twin
  | project input _ => Node.kinship "Project" input.Twin
  | aggregate input _ => Node.kinship "Aggregate" input.Twin
  | sort input _ => Node.kinship "Sort" input.Twin
  | map _ _ => ParallelCursor.Twin

theorem cursor_twins (p : Plan) (env : Option Env) (source source' : BindingSource) :
    p.cursor.Twins (p.Twin env source source') := by
  induction p with
  | values type rows => exact ValuesCursor.twins rows
  | scan s => exact IndexScanCursor.twins s
  | select input predicate ih => exact SelectCursor.twins ih predicate
  | project input p ih => exact ProjectCursor.twins ih p
  | aggregate input g ih => exact AggregateCursor.twins ih g
  | sort input s ih => exact SortCursor.twins ih s
  | map input m ih => exact ParallelCursor.twins input.cursor m

end Plan
end OrderedQuery
