import OrderedQuery.Cursor.IndexScan
import OrderedQuery.Cursor.Values
import OrderedQuery.Proofs.Cursor.Listing
import OrderedQuery.Proofs.Store.Walk

/-!
# The listings of leaves

A cursor over given rows hands out these rows.  A scan hands out the rows that are decoded
from the visible entries of its range, up to the first key that is malformed.
-/

namespace OrderedQuery

namespace ValuesCursor

variable {rows : List Row} {ctx : Context} {store : Store}

theorem conduct (rows : List Row) (ctx : Context) :
    (machine rows).Conduct ctx Leaf.Live Leaf.Idle := by
  refine Leaf.conduct (common rows) ?_
  intro source env s h w
  refine ⟨{ s with base := { s.base with state := .idle } }, ?_, rfl, h.2.1, h.2.2⟩
  show closeRun ctx s w = _
  rw [closeRun, CursorBase.beginClose_eq_ok h.1]

theorem hands {source : BindingSource} {env : Option Env} {s : State}
    (hactive : s.base.state = .active) (hlive : Leaf.Live source env s) {left : List Row}
    (hleft : rows.drop s.run = left) :
    (machine rows).Hands ctx store (Leaf.Live source env) (.ok ()) left s := by
  induction left generalizing s with
  | nil =>
      refine ⟨hlive, fun w hw => ?_⟩
      have hend : rows[s.run]? = none := List.getElem?_eq_none (List.drop_eq_nil_iff.mp hleft)
      refine ⟨{ s with base := s.base.finish, run := s.run + 1 }, w, ?_,
        ⟨CursorBase.finish_state_ne hlive.1, ?_, hlive.2.2⟩, hw⟩
      · show next rows ctx s w = _
        rw [next, CursorBase.checkNext_eq_ok hactive]
        simp only [hend, CursorBase.hand_none]
        rfl
      · rw [← hlive.2.1]
        exact CursorBase.finish_env s.base
  | cons row left ih =>
      have hlt : s.run < rows.length := by
        by_contra hge
        rw [List.drop_of_length_le (Nat.not_lt.mp hge)] at hleft
        cases hleft
      rw [List.drop_eq_getElem_cons hlt] at hleft
      obtain ⟨hrow, hrest⟩ := List.cons.inj hleft
      have hget : rows[s.run]? = some row := by rw [List.getElem?_eq_getElem hlt, hrow]
      refine ⟨hlive, fun w hw => ⟨?_, { s with base := s.base.hand (some row), run := s.run + 1 },
        w, ?_, ih hactive ⟨hlive.1, hlive.2.1, hlive.2.2⟩ hrest, hw⟩⟩
      · dsimp only [machine]
        rw [hactive, ← hrest, List.length_drop]
        show rows.length - (s.run + 1) < rows.length - s.run
        omega
      · show next rows ctx s w = _
        rw [next, CursorBase.checkNext_eq_ok hactive]
        simp only [hget]

theorem opens (rows : List Row) (ctx : Context) (store : Store) :
    (machine rows).Opens ctx store Leaf.Live Leaf.Idle fun _ => .ok ⟨rows, .ok ()⟩ := by
  intro source env s h w hw
  refine ⟨⟨{ s.base with state := .active }, s.source, 0⟩, w, ?_, ?_, hw⟩
  · show openRun ctx s w = _
    rw [openRun, CursorBase.beginOpen_eq_ok h.1]
  · exact hands (s := ⟨{ s.base with state := .active }, s.source, 0⟩) rfl
      ⟨by simp, h.2.1, h.2.2⟩ rfl

end ValuesCursor

/-! ## Scans -/

namespace IndexScan

/-- The entries of an index that lie in the range of a scan, in scan order. -/
def entries (s : IndexScan) (store : Store) : Option KeyRange → List Entry
  | none => []
  | some range => store.visible s.index.storageTable range s.direction

/-- The rows stored under keys, up to the first key that is malformed. -/
def decodeRows (s : IndexScan) : List Entry → Listing
  | [] => ⟨[], .ok ()⟩
  | e :: rest =>
      match IndexScanCursor.rowOf s e.1 with
      | .error err => ⟨[], .error err⟩
      | .ok row => (s.decodeRows rest).cons row

theorem length_decodeRows_le (s : IndexScan) (entries : List Entry) :
    (s.decodeRows entries).rows.length ≤ entries.length := by
  induction entries with
  | nil => exact Nat.le_refl 0
  | cons e rest ih =>
      rw [decodeRows]
      cases IndexScanCursor.rowOf s e.1 with
      | error err => exact Nat.zero_le _
      | ok row => exact Nat.succ_le_succ ih

/-- The rows of a scan. -/
def listing (s : IndexScan) (store : Store) (env : Env) : Except QueryError Listing :=
  (s.keyRange env).map fun range => s.decodeRows (s.entries store range)

end IndexScan

namespace IndexScanCursor

variable {scan : IndexScan} {ctx : Context} {store : Store}

theorem conduct (scan : IndexScan) (ctx : Context) :
    (machine scan).Conduct ctx Leaf.Live Leaf.Idle := by
  refine Leaf.conduct (common scan) ?_
  intro source env s h w
  refine ⟨{ s with base := { s.base with state := .idle }, run := none }, ?_, rfl, h.2.1,
    h.2.2⟩
  show closeRun ctx s w = _
  rw [closeRun, CursorBase.beginClose_eq_ok h.1]

/-- The scan stands before the given entries. -/
def At (store : Store) (run : Option Traversal) (rest : List Entry) : Prop :=
  match run with
  | none => rest = []
  | some t => t.At store rest

theorem advance_nil {run : Option Traversal} (hat : At store run []) {w : World}
    (hview : w.engine.view ctx.session = store) : (advance ctx w run).1 = none := by
  cases run with
  | none => rfl
  | some t =>
      rw [advance, hview]
      exact (Traversal.At.next_nil hat).1

theorem advance_cons {run : Option Traversal} {e : Entry} {rest : List Entry}
    (hat : At store run (e :: rest)) {w : World} (hview : w.engine.view ctx.session = store) :
    ∃ run', advance ctx w run = (some e, run') ∧ At store run' rest := by
  cases run with
  | none => cases hat
  | some t =>
      obtain ⟨hentry, hrest⟩ := Traversal.At.next_cons hat
      refine ⟨some (t.next store).2, ?_, hrest⟩
      rw [advance.eq_def]
      simp only [hview, hentry]

theorem next_nil {source : BindingSource} {env : Option Env} {s : State}
    (hactive : s.base.state = .active) (hlive : Leaf.Live source env s)
    (hat : At store s.run []) {w : World} (hw : Calm ctx store w) :
    ∃ s', next scan ctx s w = ⟨.ok none, s', w⟩ ∧ Leaf.Live source env s' := by
  have hadvance := advance_nil hat hw.view
  refine ⟨{ s with base := s.base.finish, run := none }, ?_,
    CursorBase.finish_state_ne hlive.1, ?_, hlive.2.2⟩
  · rw [next, CursorBase.checkNext_eq_ok hactive]
    simp only [hw.check]
    rw [← Prod.eta (advance ctx w s.run), hadvance]
  · rw [← hlive.2.1]
    exact CursorBase.finish_env s.base

theorem length_le_pending {s : State} (hactive : s.base.state = .active)
    {rest : List Entry} (hat : At store s.run rest) {w : World} (hw : Calm ctx store w) :
    rest.length ≤ (machine scan).pending ctx s w := by
  show rest.length ≤ pending ctx s w
  rw [pending, hactive, hw.view]
  cases hrun : s.run with
  | none =>
      rw [hrun] at hat
      rw [show rest = [] from hat]
      exact Nat.zero_le _
  | some t =>
      rw [hrun] at hat
      exact Traversal.At.length_le_pending hat

theorem hands {source : BindingSource} {env : Option Env} {s : State}
    (hactive : s.base.state = .active) (hlive : Leaf.Live source env s) {rest : List Entry}
    (hat : At store s.run rest) :
    (machine scan).Hands ctx store (Leaf.Live source env) (scan.decodeRows rest).fate
      (scan.decodeRows rest).rows s := by
  induction rest generalizing s with
  | nil =>
      refine ⟨hlive, fun w hw => ?_⟩
      obtain ⟨s', hnext, hlive'⟩ := next_nil hactive hlive hat hw
      exact ⟨s', w, hnext, hlive', hw⟩
  | cons e rest ih =>
      rw [IndexScan.decodeRows]
      cases hrow : rowOf scan e.1 with
      | error err =>
          refine ⟨hlive, fun w hw => ?_⟩
          obtain ⟨run', hadvance, hat'⟩ := advance_cons hat hw.view
          refine ⟨{ s with run := run' }, w.recordRead 1, ?_, hlive, hw.recordRead 1⟩
          show next scan ctx s w = _
          rw [next, CursorBase.checkNext_eq_ok hactive]
          simp only [hw.check, hadvance, hrow]
          rfl
      | ok row =>
          refine ⟨hlive, fun w hw => ?_⟩
          obtain ⟨run', hadvance, hat'⟩ := advance_cons hat hw.view
          have hrest := ih (s := { s with base := s.base.hand (some row), run := run' })
            hactive hlive hat'
          refine ⟨?_, { s with base := s.base.hand (some row), run := run' },
            w.recordRead 1, ?_, hrest, hw.recordRead 1⟩
          · exact Nat.lt_of_lt_of_le (Nat.lt_succ_of_le (scan.length_decodeRows_le rest))
              (length_le_pending hactive hat hw)
          · show next scan ctx s w = _
            rw [next, CursorBase.checkNext_eq_ok hactive]
            simp only [hw.check, hadvance, hrow]

theorem traversal?_eq {base : CursorBase} {env : Env} (h : base.env = some env)
    (scan : IndexScan) (ctx : Context) :
    traversal? scan ctx base = (scan.keyRange env).map fun range => range.map fun r =>
      Traversal.start scan.index.storageTable r scan.direction ctx.config.scanBatchSize := by
  rw [traversal?, CursorBase.currentEnv_eq_ok h]
  simp only [bind, Except.bind]
  cases scan.keyRange env with
  | error e => rfl
  | ok range => rfl

theorem opens (hfree : Layout.ZeroFree scan.index.storageTable) (ctx : Context)
    (store : Store) :
    (machine scan).Opens ctx store Leaf.Live Leaf.Idle (scan.listing store) := by
  intro source env s h w hw
  have hopen : (machine scan).openRun ctx s w = openRun scan ctx s w := rfl
  have henv : ({ s.base with state := .active } : CursorBase).env = some env := h.2.1
  have htraversal := traversal?_eq henv scan ctx
  rw [hopen, openRun, CursorBase.beginOpen_eq_ok h.1]
  simp only [htraversal, IndexScan.listing]
  cases scan.keyRange env with
  | error e => exact ⟨_, _, rfl⟩
  | ok range =>
      refine ⟨_, _, rfl, ?_, hw⟩
      refine hands (s := ⟨{ s.base with state := .active }, s.source, _⟩) rfl
        ⟨by simp, h.2.1, h.2.2⟩ ?_
      cases range with
      | none => rfl
      | some r => exact Traversal.at_start hfree store r _ _

end IndexScanCursor
end OrderedQuery
