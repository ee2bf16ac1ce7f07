import OrderedQuery.Cursor.Sort
import OrderedQuery.Proofs.Cursor.Pipes

/-!
# The listing of a sort

Opening a sort drains its input, so that the rows are there, or an error is, before the
first one is asked for.
-/

namespace OrderedQuery
namespace SortCursor

variable {σ : Type} {m : Machine σ} {ctx : Context} {store : Store}
  {InputLive InputIdle : Standing σ} {source : BindingSource} {env : Env}

theorem conduct (h : m.Conduct ctx InputLive InputIdle) (sorting : Sorting) :
    (machine m sorting).Conduct ctx (Node.Live InputLive) (Node.Idle InputIdle) :=
  Node.conduct (common m sorting) h

/-- Filling takes all rows of the input. -/
theorem fill_eq {Keeps : σ → Prop} {fate : Except QueryError Unit} {ins : List Row} {input : σ}
    (h : m.Hands ctx store Keeps fate ins input) (sorting : Sorting) {w : World}
    (hw : Calm ctx store w) {fuel : Nat} (hfuel : ins.length < fuel) (held : List Row) :
    ∃ input' w', fill m sorting ctx fuel held input w =
        ⟨fate.map fun _ => ins.foldl sorting.insert held, input', w'⟩ ∧ Keeps input' ∧
      Calm ctx store w' := by
  induction ins generalizing held input w fuel with
  | nil =>
      obtain ⟨fuel, rfl⟩ := Nat.exists_eq_succ_of_ne_zero (Nat.ne_of_gt hfuel)
      obtain ⟨input', w', hnext, hkeeps, hw'⟩ := h.2 w hw
      refine ⟨input', w', ?_, hkeeps, hw'⟩
      rw [fill]
      simp only [hnext]
      cases fate with
      | error e => rfl
      | ok u => rfl
  | cons row ins ih =>
      obtain ⟨fuel, rfl⟩ := Nat.exists_eq_succ_of_ne_zero (Nat.ne_of_gt
        (Nat.lt_of_le_of_lt (Nat.zero_le _) hfuel))
      obtain ⟨-, input₁, w₁, hnext, hrest, hw₁⟩ := h.2 w hw
      obtain ⟨input', w', hfill, hkeeps, hw'⟩ :=
        ih hrest hw₁ (Nat.lt_of_succ_lt_succ hfuel) (sorting.insert held row)
      refine ⟨input', w', ?_, hkeeps, hw'⟩
      rw [fill]
      simp only [hnext, hw₁.check]
      exact hfill

/-- The rows that are held are handed out one by one. -/
theorem hands (sorting : Sorting) {s : State σ} (hactive : s.base.state = .active)
    (hlive : Node.Live InputLive source (some env) s) :
    (machine m sorting).Hands ctx store (Node.Live InputLive source (some env)) (.ok ()) s.run
      s := by
  obtain ⟨base, input, held⟩ := s
  induction held generalizing base with
  | nil =>
      refine ⟨hlive, ?_⟩
      intro w hw
      refine ⟨⟨base.finish, input, []⟩, w, ?_, ?_, hw⟩
      · show next ctx _ w = _
        rw [next, CursorBase.checkNext_eq_ok hactive]
        rfl
      · exact Node.live_finish hactive hlive.2.1 hlive.2.2
  | cons row held ih =>
      refine ⟨hlive, ?_⟩
      intro w hw
      refine ⟨?_, ⟨base.hand (some row), input, held⟩, w, ?_, ?_, hw⟩
      · show held.length < pending m ctx _ w
        have hbase : base.state = .active := hactive
        simp only [pending, hbase]
        exact Nat.lt_succ_self held.length
      · show next ctx _ w = _
        rw [next, CursorBase.checkNext_eq_ok hactive]
        rfl
      · exact ih (base.hand (some row)) hactive hlive

theorem opens {listing : Env → Except QueryError Listing}
    (h : m.Opens ctx store InputLive InputIdle listing) {sorting : Sorting}
    (hcovers : ∀ env l, listing env = .ok l → ∀ row ∈ l.rows, sorting.Covers row) :
    (machine m sorting).Opens ctx store (Node.Live InputLive) (Node.Idle InputIdle)
      (fun env => do
        sorting.checkLimit ctx.config.maxRowsInMemory
        let l ← listing env
        let rows ← l.outcome
        .ok ⟨sorting.firstRows rows, .ok ()⟩) := by
  intro source env s hidle w hw
  obtain ⟨hstate, henv, hinput⟩ := hidle
  have hopens := h hinput hw
  have hopen : (machine m sorting).openRun ctx s w = openRun m sorting ctx s w := rfl
  rw [hopen, openRun, CursorBase.beginOpen_eq_ok hstate, sorted]
  dsimp only
  cases sorting.checkLimit ctx.config.maxRowsInMemory with
  | error e => exact ⟨_, _, rfl⟩
  | ok u =>
      cases hlisting : listing env with
      | error e =>
          rw [hlisting] at hopens
          obtain ⟨s', w', hopened⟩ := hopens
          simp only [hopened]
          exact ⟨_, _, rfl⟩
      | ok l =>
          rw [hlisting] at hopens
          obtain ⟨input₁, w₁, hopened, hhands, hw₁⟩ := hopens
          obtain ⟨input', w', hfill, hkeeps, hw'⟩ := fill_eq hhands sorting hw₁
            (Nat.lt_succ_of_le (hhands.length_le_pending hw₁)) []
          simp only [hopened, hfill]
          obtain ⟨rows, fate⟩ := l
          cases fate with
          | error e => exact ⟨_, _, rfl⟩
          | ok u =>
              have hrows := sorting.foldl_insert_eq (hcovers env _ hlisting)
              refine ⟨_, _, rfl, ?_, hw'⟩
              rw [← hrows]
              exact hands sorting (s := ⟨{ s.base with state := .active }, input', _⟩) rfl
                ⟨by simp, henv, hkeeps⟩

end SortCursor
end OrderedQuery
