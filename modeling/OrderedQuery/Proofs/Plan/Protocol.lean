import OrderedQuery.Plan.Cursor
import OrderedQuery.Proofs.Cursor.Protocol

/-!
# Every cursor of a plan follows the protocol

Each operator answers the calls that it defines itself as the protocol asks, over any input
that obeys it.  By induction on the plan its cursor obeys the protocol together with all
cursors below it.  A parallel map has no cursor below it: the cursors of its workers belong to
the workers.
-/

namespace OrderedQuery

/-! ## Operators without input -/

namespace ValuesCursor

theorem openRun_answers (ctx : Context) (s : State) (w : World) :
    Answers Leaf.base .openRun s w ((openRun ctx s w).map fun () => .done) := by
  constructor
  · intro h
    rw [openRun, CursorBase.beginOpen_eq_error h]
    rfl
  · intro h
    rw [openRun, CursorBase.beginOpen_eq_ok h]
    exact ⟨rfl, rfl⟩

theorem next_answers (rows : List Row) (ctx : Context) (s : State) (w : World) :
    Answers Leaf.base .next s w ((next rows ctx s w).map .row) := by
  constructor
  · intro h
    rw [next, CursorBase.checkNext_eq_error h]
    rfl
  · intro h
    rw [next, CursorBase.checkNext_eq_ok h]
    exact CursorBase.moves_hand h _

theorem closeRun_eq (rows : List Row) : (machine rows).closeRun = Leaf.closeInPlace id := rfl

theorem obeys (rows : List Row) :
    (machine rows).Obeys "Values" fun s => [s.base.state] := by
  apply Leaf.obeys (common rows) openRun_answers (next_answers rows)
  · rw [closeRun_eq]
    exact Leaf.closeInPlace_answers id
  · rw [closeRun_eq]
    exact Leaf.noRefusal_closeInPlace id

end ValuesCursor

namespace IndexScanCursor

variable (scan : IndexScan)

theorem openRun_answers (ctx : Context) (s : State) (w : World) :
    Answers Leaf.base .openRun s w ((openRun scan ctx s w).map fun () => .done) := by
  constructor
  · intro h
    rw [openRun, CursorBase.beginOpen_eq_error h]
    rfl
  · intro h
    rw [openRun, CursorBase.beginOpen_eq_ok h]
    simp only
    cases traversal? scan ctx { s.base with state := .active } with
    | error e => exact ⟨CursorBase.finish_name _, CursorBase.finish_state rfl⟩
    | ok run => exact ⟨rfl, rfl⟩

theorem next_answers (ctx : Context) (s : State) (w : World) :
    Answers Leaf.base .next s w ((next scan ctx s w).map .row) := by
  constructor
  · intro h
    rw [next, CursorBase.checkNext_eq_error h]
    rfl
  · intro h
    rw [next, CursorBase.checkNext_eq_ok h]
    simp only
    obtain ⟨checked, w⟩ := w.check ctx
    cases checked with
    | error e => exact ⟨rfl, rfl⟩
    | ok _ =>
        simp only
        obtain ⟨entry, run⟩ := advance ctx w s.run
        cases entry with
        | none => exact CursorBase.moves_hand h none
        | some entry =>
            obtain ⟨key, value⟩ := entry
            simp only
            cases rowOf scan key with
            | error e => exact ⟨rfl, rfl⟩
            | ok row => exact CursorBase.moves_hand h (some row)

theorem closeRun_eq : (machine scan).closeRun = Leaf.closeInPlace fun _ => none := rfl

theorem obeys : (machine scan).Obeys "IndexScan" fun s => [s.base.state] := by
  apply Leaf.obeys (common scan) (openRun_answers scan) (next_answers scan)
  · rw [closeRun_eq]
    exact Leaf.closeInPlace_answers _
  · rw [closeRun_eq]
    exact Leaf.noRefusal_closeInPlace _

end IndexScanCursor

namespace ParallelCursor

variable {σ : Type} (m : Machine σ)

theorem openRun_answers (p : Partitioning) (ctx : Context) (s : State σ) (w : World) :
    Answers Leaf.base .openRun s w ((openRun m p ctx s w).map fun () => .done) := by
  constructor
  · intro h
    rw [openRun, CursorBase.beginOpen_eq_error h]
    rfl
  · intro h
    rw [openRun, CursorBase.beginOpen_eq_ok h]
    simp only
    obtain ⟨started, w⟩ := startRun m p ctx { s.base with state := .active } w
    cases started with
    | error e => exact ⟨CursorBase.finish_name _, CursorBase.finish_state rfl⟩
    | ok run => exact ⟨rfl, rfl⟩

/-- A run that fails leaves the cursor active until it is closed. -/
theorem fail_moves (s : State σ) (e : QueryError) (w : World) :
    CursorBase.Moves .next ((fail m s e w).result.map .row) s.base (fail m s e w).state.base := by
  rw [fail]
  cases s.run with
  | none => exact ⟨rfl, rfl⟩
  | some r => exact ⟨rfl, rfl⟩

theorem complete_moves {s : State σ} (h : s.base.state = .active) (r : Run σ) (w : World) :
    CursorBase.Moves .next ((complete m s r w).result.map .row) s.base
      (complete m s r w).state.base := by
  rw [complete]
  simp only
  cases (r.shutdown m w).1.verdict with
  | error e => exact ⟨rfl, rfl⟩
  | ok _ => exact CursorBase.moves_hand h none

theorem receive_moves (ctx : Context) (fuel : Nat) {s : State σ} (h : s.base.state = .active)
    (w : World) :
    CursorBase.Moves .next ((receive m ctx fuel s w).result.map .row) s.base
      (receive m ctx fuel s w).state.base := by
  induction fuel generalizing s w with
  | zero => exact ⟨rfl, rfl⟩
  | succ fuel ih =>
      rw [receive]
      obtain ⟨checked, w⟩ := w.check ctx
      cases checked with
      | error e => exact fail_moves m s e w
      | ok _ =>
          simp only
          cases s.run with
          | none => exact CursorBase.moves_hand h none
          | some r =>
              simp only
              by_cases hlive : r.live = 0
              · rw [if_pos hlive]
                exact complete_moves m h r w
              · rw [if_neg hlive]
                obtain ⟨receipt, r, w⟩ := r.await m w
                cases receipt with
                | message message =>
                    cases message with
                    | row worker row => exact CursorBase.moves_hand h (some row)
                    | finished worker => exact ih (s := { s with run := some (r.note worker) }) h w
                    | failed worker e =>
                        exact fail_moves m { s with run := some (r.note worker) } e w
                | disconnected => exact fail_moves m { s with run := some r } _ w
                | timeout => exact ih (s := { s with run := some r }) h w
                | stalled => exact ⟨rfl, rfl⟩

theorem next_answers (ctx : Context) (s : State σ) (w : World) :
    Answers Leaf.base .next s w ((next m ctx s w).map .row) := by
  constructor
  · intro h
    rw [next, CursorBase.checkNext_eq_error h]
    rfl
  · intro h
    rw [next, CursorBase.checkNext_eq_ok h]
    exact receive_moves m ctx _ h w

theorem closeRun_answers (ctx : Context) (s : State σ) (w : World) :
    Answers Leaf.base .closeRun s w ((closeRun m ctx s w).map fun () => .done) := by
  refine .of_live (fun _ => .rfl) ?_ ?_
  · intro h
    rw [closeRun, CursorBase.beginClose_eq_error h]
    rfl
  · intro h
    rw [closeRun, CursorBase.beginClose_eq_ok h]
    simp only
    cases s.run with
    | none => exact ⟨rfl, rfl⟩
    | some r => exact ⟨rfl, rfl⟩

theorem noRefusal_verdict (r : Run σ) : NoRefusal r.verdict := by
  unfold Run.verdict
  split
  · split <;> exact nofun
  · exact nofun

theorem obeys (p : Partitioning) :
    (machine m p).Obeys "MapParallel" fun s => [s.base.state] := by
  apply Leaf.obeys (common m p) (openRun_answers m p) (next_answers m) (closeRun_answers m)
  intro ctx s w hs
  show NoRefusal (closeRun m ctx s w).result
  rw [closeRun, CursorBase.beginClose_eq_ok hs]
  simp only
  cases s.run with
  | none => exact nofun
  | some r => exact noRefusal_verdict _

end ParallelCursor

/-! ## Operators over an input -/

namespace SelectCursor

variable {σ : Type} {m : Machine σ} {name : String} {tree : σ → List CursorState}

theorem search_moves (predicate : Expr) (ctx : Context) (fuel : Nat) {s : State σ}
    (h : s.base.state = .active) (w : World) :
    CursorBase.Moves .next ((search m predicate ctx fuel s w).result.map .row) s.base
      (search m predicate ctx fuel s w).state.base := by
  induction fuel generalizing s w with
  | zero => exact ⟨rfl, rfl⟩
  | succ fuel ih =>
      rw [search]
      simp only [Node.onInput]
      cases (m.next ctx s.input w).result with
      | error e => exact ⟨rfl, rfl⟩
      | ok row =>
          cases row with
          | none => exact CursorBase.moves_hand h none
          | some row =>
              simp only
              cases passes predicate s.base row with
              | error e => exact ⟨rfl, rfl⟩
              | ok passed =>
                  cases passed with
                  | true => exact CursorBase.moves_hand h (some row)
                  | false => exact ih (s := ⟨s.base, (m.next ctx s.input w).state, s.run⟩) h _

theorem search_keeps (hm : m.Obeys name tree) (predicate : Expr) (ctx : Context) (fuel : Nat)
    {s : State σ} (w : World) (h : NoneDestroyed (tree s.input)) :
    NoneDestroyed (tree (search m predicate ctx fuel s w).state.input) := by
  induction fuel generalizing s w with
  | zero => exact h
  | succ fuel ih =>
      have hkept := hm.keeps .next ctx s.input w (by decide) h
      rw [search]
      simp only [Node.onInput]
      cases (m.next ctx s.input w).result with
      | error e => exact hkept
      | ok row =>
          cases row with
          | none => exact hkept
          | some row =>
              simp only
              cases passes predicate s.base row with
              | error e => exact hkept
              | ok passed =>
                  cases passed with
                  | true => exact hkept
                  | false => exact ih _ hkept

theorem next_answers (m : Machine σ) (predicate : Expr) (ctx : Context) (s : State σ)
    (w : World) : Answers Node.base .next s w ((next m predicate ctx s w).map .row) := by
  constructor
  · intro h
    rw [next, CursorBase.checkNext_eq_error h]
    rfl
  · intro h
    rw [next, CursorBase.checkNext_eq_ok h]
    exact search_moves predicate ctx _ h w

theorem next_keeps (hm : m.Obeys name tree) (predicate : Expr) (ctx : Context) (s : State σ)
    (w : World) (h : NoneDestroyed (tree s.input)) :
    NoneDestroyed (tree (next m predicate ctx s w).state.input) := by
  rw [next]
  cases s.base.checkNext with
  | error e => exact h
  | ok _ => exact search_keeps hm predicate ctx _ w h

theorem obeys (hm : m.Obeys name tree) (predicate : Expr) :
    (machine m predicate).Obeys "Select" (Node.treeOf tree) :=
  Node.obeys (common m predicate) hm (Node.openRun_answers m id) (next_answers m predicate)
    (Node.openRun_keeps hm id) (next_keeps hm predicate)

end SelectCursor

namespace ProjectCursor

variable {σ : Type} {m : Machine σ} {name : String} {tree : σ → List CursorState}

theorem next_answers (m : Machine σ) (p : Projection) (ctx : Context) (s : State σ)
    (w : World) : Answers Node.base .next s w ((next m p ctx s w).map .row) := by
  constructor
  · intro h
    rw [next, CursorBase.checkNext_eq_error h]
    rfl
  · intro h
    rw [next, CursorBase.checkNext_eq_ok h]
    simp only [Node.onInput]
    cases (m.next ctx s.input w).result with
    | error e => exact ⟨rfl, rfl⟩
    | ok row =>
        cases row with
        | none => exact CursorBase.moves_hand h none
        | some row =>
            simp only
            cases rowOf p s.base row with
            | error e => exact ⟨rfl, rfl⟩
            | ok row => exact CursorBase.moves_hand h (some row)

theorem next_keeps (hm : m.Obeys name tree) (p : Projection) (ctx : Context) (s : State σ)
    (w : World) (h : NoneDestroyed (tree s.input)) :
    NoneDestroyed (tree (next m p ctx s w).state.input) := by
  have hkept := hm.keeps .next ctx s.input w (by decide) h
  rw [next]
  cases s.base.checkNext with
  | error e => exact h
  | ok _ =>
      simp only [Node.onInput]
      cases (m.next ctx s.input w).result with
      | error e => exact hkept
      | ok row =>
          cases row with
          | none => exact hkept
          | some row =>
              simp only
              cases rowOf p s.base row with
              | error e => exact hkept
              | ok row => exact hkept

theorem obeys (hm : m.Obeys name tree) (p : Projection) :
    (machine m p).Obeys "Project" (Node.treeOf tree) :=
  Node.obeys (common m p) hm (Node.openRun_answers m id) (next_answers m p)
    (Node.openRun_keeps hm id) (next_keeps hm p)

end ProjectCursor

namespace AggregateCursor

variable {σ : Type} {m : Machine σ} {name : String} {tree : σ → List CursorState}

theorem flush_moves (g : Grouping) {s : State σ} (h : s.base.state = .active) (w : World) :
    CursorBase.Moves .next ((flush g s w).result.map .row) s.base (flush g s w).state.base := by
  rw [flush]
  obtain ⟨emitted, run⟩ := emit g s.run
  cases emitted with
  | error e => exact ⟨rfl, rfl⟩
  | ok row => exact CursorBase.moves_hand h row

theorem flush_input (g : Grouping) (s : State σ) (w : World) :
    (flush g s w).state.input = s.input := by
  rw [flush]
  obtain ⟨emitted, run⟩ := emit g s.run
  cases emitted with
  | error e => rfl
  | ok row => rfl

theorem search_moves (g : Grouping) (ctx : Context) (fuel : Nat) {s : State σ}
    (h : s.base.state = .active) (w : World) :
    CursorBase.Moves .next ((search m g ctx fuel s w).result.map .row) s.base
      (search m g ctx fuel s w).state.base := by
  induction fuel generalizing s w with
  | zero => exact ⟨rfl, rfl⟩
  | succ fuel ih =>
      rw [search]
      simp only [Node.onInput]
      cases (m.next ctx s.input w).result with
      | error e => exact ⟨rfl, rfl⟩
      | ok row =>
          cases row with
          | none =>
              exact flush_moves g
                (s := ⟨s.base, (m.next ctx s.input w).state, { s.run with inputDone := true }⟩)
                h _
          | some row =>
              simp only
              obtain ⟨step, run⟩ := take g row s.run
              cases step with
              | more => exact ih (s := ⟨s.base, (m.next ctx s.input w).state, run⟩) h _
              | finished row => exact CursorBase.moves_hand h row
              | failed e => exact ⟨rfl, rfl⟩

theorem search_keeps (hm : m.Obeys name tree) (g : Grouping) (ctx : Context) (fuel : Nat)
    {s : State σ} (w : World) (h : NoneDestroyed (tree s.input)) :
    NoneDestroyed (tree (search m g ctx fuel s w).state.input) := by
  induction fuel generalizing s w with
  | zero => exact h
  | succ fuel ih =>
      have hkept := hm.keeps .next ctx s.input w (by decide) h
      rw [search]
      simp only [Node.onInput]
      cases (m.next ctx s.input w).result with
      | error e => exact hkept
      | ok row =>
          cases row with
          | none =>
              simp only [flush_input]
              exact hkept
          | some row =>
              simp only
              obtain ⟨step, run⟩ := take g row s.run
              cases step with
              | more => exact ih (s := ⟨s.base, _, run⟩) _ hkept
              | finished row => exact hkept
              | failed e => exact hkept

theorem next_answers (m : Machine σ) (g : Grouping) (ctx : Context) (s : State σ)
    (w : World) : Answers Node.base .next s w ((next m g ctx s w).map .row) := by
  constructor
  · intro h
    rw [next, CursorBase.checkNext_eq_error h]
    rfl
  · intro h
    rw [next, CursorBase.checkNext_eq_ok h]
    simp only
    by_cases hdone : s.run.inputDone = true
    · rw [if_pos hdone]
      exact flush_moves g h w
    · rw [if_neg hdone]
      exact search_moves g ctx _ h w

theorem next_keeps (hm : m.Obeys name tree) (g : Grouping) (ctx : Context) (s : State σ)
    (w : World) (h : NoneDestroyed (tree s.input)) :
    NoneDestroyed (tree (next m g ctx s w).state.input) := by
  rw [next]
  cases s.base.checkNext with
  | error e => exact h
  | ok _ =>
      simp only
      by_cases hdone : s.run.inputDone = true
      · rw [if_pos hdone, flush_input]
        exact h
      · rw [if_neg hdone]
        exact search_keeps hm g ctx _ w h

theorem obeys (hm : m.Obeys name tree) (g : Grouping) :
    (machine m g).Obeys "Aggregate" (Node.treeOf tree) :=
  Node.obeys (common m g) hm
    (Node.openRun_answers m fun _ => Progress.start) (next_answers m g)
    (Node.openRun_keeps hm fun _ => Progress.start) (next_keeps hm g)

end AggregateCursor

namespace SortCursor

variable {σ : Type} {m : Machine σ} {name : String} {tree : σ → List CursorState}

theorem fill_keeps (hm : m.Obeys name tree) (sorting : Sorting) (ctx : Context) (fuel : Nat)
    (held : List Row) {input : σ} (w : World) (h : NoneDestroyed (tree input)) :
    NoneDestroyed (tree (fill m sorting ctx fuel held input w).state) := by
  induction fuel generalizing held input w with
  | zero => exact h
  | succ fuel ih =>
      have hkept := hm.keeps .next ctx input w (by decide) h
      rw [fill]
      cases (m.next ctx input w).result with
      | error e => exact hkept
      | ok row =>
          cases row with
          | none => exact hkept
          | some row =>
              simp only
              obtain ⟨checked, w'⟩ := (m.next ctx input w).world.check ctx
              cases checked with
              | error e => exact hkept
              | ok _ => exact ih _ _ hkept

theorem sorted_keeps (hm : m.Obeys name tree) (sorting : Sorting) (ctx : Context) {input : σ}
    (w : World) (h : NoneDestroyed (tree input)) :
    NoneDestroyed (tree (sorted m sorting ctx input w).state) := by
  have hkept := hm.keeps .openRun ctx input w (by decide) h
  rw [sorted]
  cases sorting.checkLimit ctx.config.maxRowsInMemory with
  | error e => exact h
  | ok _ =>
      simp only
      cases (m.openRun ctx input w).result with
      | error e => exact hkept
      | ok _ => exact fill_keeps hm sorting ctx _ [] _ hkept

theorem openRun_answers (m : Machine σ) (sorting : Sorting) (ctx : Context) (s : State σ)
    (w : World) :
    Answers Node.base .openRun s w ((openRun m sorting ctx s w).map fun () => .done) := by
  constructor
  · intro h
    rw [openRun, CursorBase.beginOpen_eq_error h]
    rfl
  · intro h
    rw [openRun, CursorBase.beginOpen_eq_ok h]
    simp only
    cases (sorted m sorting ctx s.input w).result with
    | error e => exact ⟨CursorBase.finish_name _, CursorBase.finish_state rfl⟩
    | ok rows => exact ⟨rfl, rfl⟩

theorem openRun_keeps (hm : m.Obeys name tree) (sorting : Sorting) (ctx : Context) (s : State σ)
    (w : World) (h : NoneDestroyed (tree s.input)) :
    NoneDestroyed (tree (openRun m sorting ctx s w).state.input) := by
  have hkept := sorted_keeps hm sorting ctx w h
  rw [openRun]
  cases s.base.beginOpen with
  | error e => exact h
  | ok base =>
      simp only
      cases (sorted m sorting ctx s.input w).result with
      | error e => exact hkept
      | ok rows => exact hkept

theorem next_answers (ctx : Context) (s : State σ) (w : World) :
    Answers Node.base .next s w ((next ctx s w).map .row) := by
  constructor
  · intro h
    rw [next, CursorBase.checkNext_eq_error h]
    rfl
  · intro h
    rw [next, CursorBase.checkNext_eq_ok h]
    exact CursorBase.moves_hand h _

theorem next_keeps (ctx : Context) (s : State σ) (w : World) (h : NoneDestroyed (tree s.input)) :
    NoneDestroyed (tree (next ctx s w).state.input) := by
  rw [next]
  cases s.base.checkNext with
  | error e => exact h
  | ok _ => exact h

theorem obeys (hm : m.Obeys name tree) (sorting : Sorting) :
    (machine m sorting).Obeys "Sort" (Node.treeOf tree) :=
  Node.obeys (common m sorting) hm (openRun_answers m sorting) next_answers
    (openRun_keeps hm sorting) next_keeps

end SortCursor

/-! ## Plans -/

namespace Plan

/-- The states of all cursors of a plan, the root first. -/
def states : (p : Plan) → p.State → List CursorState
  | values .. => fun s : ValuesCursor.State => [s.base.state]
  | scan _ => fun s : IndexScanCursor.State => [s.base.state]
  | select input _ => Node.treeOf input.states
  | project input _ => Node.treeOf input.states
  | aggregate input _ => Node.treeOf input.states
  | sort input _ => Node.treeOf input.states
  | map input _ => fun s : ParallelCursor.State input.State => [s.base.state]

theorem cursor_obeys (p : Plan) : p.cursor.Obeys p.name p.states := by
  induction p with
  | values type rows => exact ValuesCursor.obeys rows
  | scan s => exact IndexScanCursor.obeys s
  | select input predicate ih => exact SelectCursor.obeys ih predicate
  | project input p ih => exact ProjectCursor.obeys ih p
  | aggregate input g ih => exact AggregateCursor.obeys ih g
  | sort input s ih => exact SortCursor.obeys ih s
  | map input m ih => exact ParallelCursor.obeys input.cursor m

/-- After any calls on the cursor of a plan, a further call is refused and changes nothing, if
the state of the root does not allow it, and otherwise takes the root to the state that the
call leads to.  Closing leaves every cursor of the tree idle and destroying every one
destroyed, whatever they return.  No other call destroys a cursor, and a cursor is not
destroyed twice: before the root is destroyed none is, and no cursor of the tree refuses to be
closed or destroyed with it. -/
theorem cursor_follows_protocol (p : Plan) {source : BindingSource} {s : p.State}
    (hs : p.cursor.Reached source s) (c : Call) (ctx : Context) (w : World) :
    let state := (p.cursor.base s).state
    let o := p.cursor.call c ctx s w
    (¬ c.Allowed state → o = ⟨.error (.protocol p.name c.action state), s, w⟩) ∧
      (c.Allowed state → (p.cursor.base o.state).state = c.leadsTo state o.result) ∧
      (state = .destroyed → ∀ t ∈ p.states s, t = .destroyed) ∧
      (state ≠ .destroyed → ∀ t ∈ p.states s, t ≠ .destroyed) ∧
      (state ≠ .destroyed → c ≠ .destroy → ∀ t ∈ p.states o.state, t ≠ .destroyed) ∧
      (state ≠ .destroyed → c = .closeRun → ∀ t ∈ p.states o.state, t = .idle) ∧
      (state ≠ .destroyed → c = .destroy → ∀ t ∈ p.states o.state, t = .destroyed) ∧
      (state ≠ .destroyed → c = .closeRun ∨ c = .destroy →
        ∀ cursor action t, o.result ≠ .error (.protocol cursor action t)) := by
  intro state o
  have hp := p.cursor_obeys
  obtain ⟨hname, htree⟩ := hp.reached hs
  have hanswer := hp.answers c ctx s w
  have hnone : state ≠ .destroyed → NoneDestroyed (p.states s) := by
    intro hlive
    rcases htree with hnone | hall
    · exact hnone
    · exact absurd (hall _ (hp.root s)) hlive
  refine ⟨?_, fun hallowed => (hanswer.2 hallowed).2, ?_, hnone, ?_, ?_, ?_, ?_⟩
  · intro hrefused
    have ho : o = ⟨.error ((p.cursor.base s).violation c.action), s, w⟩ := hanswer.1 hrefused
    rw [ho, CursorBase.violation, hname]
  · intro hdestroyed
    rcases htree with hnone | hall
    · exact absurd hdestroyed (hnone _ (hp.root s))
    · exact hall
  · intro hlive hc
    exact hp.keeps c ctx s w hc (hnone hlive)
  · rintro hlive rfl
    exact (hp.closes ctx s w (hnone hlive)).2
  · rintro hlive rfl
    exact (hp.destroys ctx s w (hnone hlive)).2
  · rintro hlive (rfl | rfl) cursor action t
    · exact ((hp.closes ctx s w (hnone hlive)).1.map _) cursor action t
    · exact ((hp.destroys ctx s w (hnone hlive)).1.map _) cursor action t

/-- A selection whose input has a row, and which fails on it since no environment has been
supplied, stays active until it is destroyed with its input. -/
theorem cursor_follows_protocol_after_failure :
    let type : RowType := .ofFields [.int]
    let p : Plan := .select (.values type [⟨type, [.int 1], rfl⟩]) (.literal (.bool true))
    let source : BindingSource := .ofEnv .root
    let made := (World.ofEngine .empty).newContext {}
    let opened := p.cursor.call .openRun made.1 (p.cursor.fresh source) made.2
    let failed := p.cursor.call .next made.1 opened.state opened.world
    p.cursor.Reached source failed.state ∧
      failed.result.isOk = false ∧ (p.cursor.base failed.state).state = .active ∧
      ∀ t ∈ p.states (p.cursor.call .destroy made.1 failed.state failed.world).state,
        t = .destroyed := by
  intro type p source made opened failed
  have hreached : p.cursor.Reached source failed.state :=
    .call (.call .fresh .openRun made.1 made.2) .next made.1 opened.world
  have hactive : (p.cursor.base failed.state).state = .active := rfl
  have hlive : (p.cursor.base failed.state).state ≠ .destroyed := by
    rw [hactive]
    decide
  obtain ⟨-, -, -, -, -, -, hdestroyed, -⟩ :=
    cursor_follows_protocol p hreached .destroy made.1 failed.world
  exact ⟨hreached, rfl, hactive, hdestroyed hlive rfl⟩

end Plan
end OrderedQuery
