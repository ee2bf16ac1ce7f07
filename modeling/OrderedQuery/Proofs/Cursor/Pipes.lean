import OrderedQuery.Cursor.Project
import OrderedQuery.Cursor.Select
import OrderedQuery.Proofs.Plan.Semantics

/-!
# The listings of selections and projections

Both look at one row of the input after the other and keep nothing in between, so that their
listings are computed row by row from the listing of the input.
-/

namespace OrderedQuery

theorem Listing.length_pass_le (f : Row → Except QueryError (Option Row)) (ins : List Row)
    (fate : Except QueryError Unit) : (pass f ins fate).rows.length ≤ ins.length := by
  induction ins with
  | nil => exact Nat.le_refl 0
  | cons row ins ih =>
      rw [pass]
      split
      · exact Nat.zero_le _
      · exact Nat.le_succ_of_le ih
      · exact Nat.succ_le_succ ih

namespace Node

variable {ρ σ : Type} {m : Machine σ} {ctx : Context} {store : Store}
  {InputLive InputIdle : Standing σ} {source : BindingSource} {env : Env}

/-- The node is in a run in which its input hands out the given rows. -/
structure Draws (m : Machine σ) (ctx : Context) (store : Store) (InputLive : Standing σ)
    (source : BindingSource) (env : Env) (fate : Except QueryError Unit) (ins : List Row)
    (s : Node ρ σ) : Prop where
  active : s.base.state = .active
  bound : s.base.env = some env
  input : m.Hands ctx store (InputLive source (some env)) fate ins s.input

variable {fate : Except QueryError Unit} {ins : List Row} {s : Node ρ σ}

theorem Draws.live (h : Draws m ctx store InputLive source env fate ins s) :
    Live InputLive source (some env) s :=
  ⟨by rw [h.active]; decide, h.bound, h.input.keeps⟩

theorem live_of_active {b : CursorBase} {input : σ} {run : ρ} (hactive : b.state = .active)
    (henv : b.env = some env) (h : InputLive source (some env) input) :
    Live InputLive source (some env) (⟨b, input, run⟩ : Node ρ σ) :=
  ⟨by rw [hactive]; decide, henv, h⟩

/-- A node whose input has ended. -/
theorem live_finish {b : CursorBase} {input : σ} {run : ρ} (hactive : b.state = .active)
    (henv : b.env = some env) (h : InputLive source (some env) input) :
    Live InputLive source (some env) (⟨b.finish, input, run⟩ : Node ρ σ) :=
  ⟨CursorBase.finish_state_ne (by rw [hactive]; decide), by rw [CursorBase.finish_env, henv], h⟩

/-- Opening a node opens its input. -/
theorem openRun_eq {listing : Env → Except QueryError Listing}
    (h : m.Opens ctx store InputLive InputIdle listing) (run : ρ → ρ)
    (hs : Idle InputIdle source (some env) s) {w : World} (hw : Calm ctx store w) :
    match listing env with
    | .error e => ∃ s' w', openRun m run ctx s w = ⟨.error e, s', w'⟩
    | .ok l => ∃ s' w', openRun m run ctx s w = ⟨.ok (), s', w'⟩ ∧ s'.run = run s.run ∧
        Draws m ctx store InputLive source env l.fate l.rows s' ∧ Calm ctx store w' := by
  obtain ⟨hstate, henv, hidle⟩ := hs
  have hopens := h hidle hw
  rw [openRun, CursorBase.beginOpen_eq_ok hstate]
  cases hlisting : listing env with
  | error e =>
      rw [hlisting] at hopens
      obtain ⟨s', w', hopened⟩ := hopens
      simp only [hopened]
      exact ⟨_, _, rfl⟩
  | ok l =>
      rw [hlisting] at hopens
      obtain ⟨s', w', hopened, hhands, hw'⟩ := hopens
      simp only [hopened]
      exact ⟨_, _, rfl, rfl, ⟨rfl, henv, hhands⟩, hw'⟩

/-- A node whose open run hands out a listing computed from that of its input. -/
theorem opens {M : Machine (Node ρ σ)} {run : ρ → ρ} (hopen : M.openRun = openRun m run)
    {listing : Env → Except QueryError Listing} (f : Env → Listing → Listing)
    (h : m.Opens ctx store InputLive InputIdle listing)
    (hhands : ∀ {source env l} {s : Node ρ σ} (r : ρ), s.run = run r →
      Draws m ctx store InputLive source env l.fate l.rows s →
      M.Hands ctx store (Live InputLive source (some env)) (f env l).fate (f env l).rows s) :
    M.Opens ctx store (Live InputLive) (Idle InputIdle)
      fun env => (listing env).map (f env) := by
  intro source env s hidle w hw
  have hopens := openRun_eq h run hidle hw
  rw [hopen]
  dsimp only
  cases hlisting : listing env with
  | error e =>
      rw [hlisting] at hopens
      exact hopens
  | ok l =>
      rw [hlisting] at hopens
      obtain ⟨s', w', hopened, hrun, hdraws, hw'⟩ := hopens
      exact ⟨s', w', hopened, hhands s.run hrun hdraws, hw'⟩

end Node

/-! ## Selections -/

namespace SelectCursor

variable {σ : Type} {m : Machine σ} {ctx : Context} {store : Store}
  {InputLive InputIdle : Standing σ} {source : BindingSource} {env : Env}

theorem conduct (h : m.Conduct ctx InputLive InputIdle) (predicate : Expr) :
    (machine m predicate).Conduct ctx (Node.Live InputLive) (Node.Idle InputIdle) :=
  Node.conduct (common m predicate) h

theorem passes_eq {base : CursorBase} (henv : base.env = some env) (predicate : Expr)
    (row : Row) :
    passes predicate base row = (predicate.keep env row).map Option.isSome := by
  rw [passes, CursorBase.currentEnv_eq_ok henv, Expr.keep]
  simp only [bind, Except.bind]
  cases predicate.eval (some row) env with
  | error e => rfl
  | ok v =>
      by_cases hv : v = .bool true
      · simp [Except.map, hv]
      · simp [Except.map, hv]

theorem eq_of_keep_eq_some {predicate : Expr} {row out : Row}
    (h : predicate.keep env row = .ok (some out)) : out = row := by
  obtain ⟨v, -, hv⟩ := Except.bind_eq_ok_iff.mp h
  split at hv
  · exact (Option.some.inj (Except.ok.inj hv)).symm
  · cases Except.ok.inj hv

/-- The cursor is about to hand out a listing. -/
def Awaits (m : Machine σ) (ctx : Context) (store : Store) (InputLive : Standing σ)
    (source : BindingSource) (env : Env) (predicate : Expr) (fate : Except QueryError Unit)
    (l : Listing) (s : State σ) : Prop :=
  ∃ ins, Node.Draws m ctx store InputLive source env fate ins s ∧
    Listing.pass (predicate.keep env) ins fate = l

/-- A search finds the first row that passes. -/
theorem search_finds (predicate : Expr) {fate : Except QueryError Unit} {ins : List Row}
    {s : State σ} (h : Node.Draws m ctx store InputLive source env fate ins s) {w : World}
    (hw : Calm ctx store w) {fuel : Nat} (hfuel : ins.length < fuel) :
    Machine.Finds ctx store (Node.Live InputLive source (some env))
      (Awaits m ctx store InputLive source env predicate fate)
      (Listing.pass (predicate.keep env) ins fate) (search m predicate ctx fuel s w) := by
  induction ins generalizing s w fuel with
  | nil =>
      obtain ⟨fuel, rfl⟩ := Nat.exists_eq_succ_of_ne_zero (Nat.ne_of_gt hfuel)
      obtain ⟨hlive, hend⟩ := h.input
      obtain ⟨input', w', hnext, hlive', hw'⟩ := hend w hw
      rw [search]
      simp only [Node.onInput, hnext, Listing.pass]
      cases fate with
      | error e => exact ⟨hw', rfl, Node.live_of_active h.active h.bound hlive'⟩
      | ok u => exact ⟨hw', rfl, Node.live_finish h.active h.bound hlive'⟩
  | cons row ins ih =>
      obtain ⟨fuel, rfl⟩ := Nat.exists_eq_succ_of_ne_zero (Nat.ne_of_gt
        (Nat.lt_of_le_of_lt (Nat.zero_le _) hfuel))
      obtain ⟨hlive, hall⟩ := h.input
      obtain ⟨-, input', w', hnext, hrest, hw'⟩ := hall w hw
      have hdraws : Node.Draws m ctx store InputLive source env fate ins
          { s with input := input' } := ⟨h.active, h.bound, hrest⟩
      rw [search]
      simp only [Node.onInput, hnext, passes_eq h.bound, Listing.pass]
      cases hkeep : predicate.keep env row with
      | error e => exact ⟨hw', rfl, hdraws.live⟩
      | ok out =>
          cases out with
          | none => exact ih hdraws hw' (Nat.lt_of_succ_lt_succ hfuel)
          | some out =>
              obtain rfl := eq_of_keep_eq_some hkeep
              exact ⟨hw', rfl, ins, ⟨h.active, h.bound, hrest⟩, rfl⟩

theorem hands (predicate : Expr) {fate : Except QueryError Unit} {ins : List Row}
    {s : State σ} (h : Node.Draws m ctx store InputLive source env fate ins s) :
    (machine m predicate).Hands ctx store (Node.Live InputLive source (some env))
      (Listing.pass (predicate.keep env) ins fate).fate
      (Listing.pass (predicate.keep env) ins fate).rows s := by
  have hawaits : Awaits m ctx store InputLive source env predicate fate
      (Listing.pass (predicate.keep env) ins fate) s := ⟨ins, h, rfl⟩
  refine Machine.Hands.of_finds ?_ ?_ ?_ hawaits
  · rintro l s ⟨rest, hdraws, -⟩
    exact hdraws.live
  · rintro l s ⟨rest, hdraws, rfl⟩ w hw
    exact Nat.le_trans (Listing.length_pass_le _ rest fate) (hdraws.input.length_le_pending hw)
  · rintro l s ⟨rest, hdraws, rfl⟩ w hw
    show Machine.Finds ctx store _ _ _ (next m predicate ctx s w)
    rw [next, CursorBase.checkNext_eq_ok hdraws.active]
    exact search_finds predicate hdraws hw
      (Nat.lt_succ_of_le (hdraws.input.length_le_pending hw))

theorem opens {listing : Env → Except QueryError Listing}
    (h : m.Opens ctx store InputLive InputIdle listing) (predicate : Expr) :
    (machine m predicate).Opens ctx store (Node.Live InputLive) (Node.Idle InputIdle)
      fun env => (listing env).map fun l =>
        Listing.pass (predicate.keep env) l.rows l.fate := by
  have hopen : (machine m predicate).openRun = Node.openRun m id := rfl
  exact Node.opens hopen (fun env l => Listing.pass (predicate.keep env) l.rows l.fate) h
    fun _ _ hdraws => hands predicate hdraws

end SelectCursor

/-! ## Projections -/

namespace ProjectCursor

variable {σ : Type} {m : Machine σ} {ctx : Context} {store : Store}
  {InputLive InputIdle : Standing σ} {source : BindingSource} {env : Env}

theorem conduct (h : m.Conduct ctx InputLive InputIdle) (p : Projection) :
    (machine m p).Conduct ctx (Node.Live InputLive) (Node.Idle InputIdle) :=
  Node.conduct (common m p) h

theorem hands (p : Projection) {fate : Except QueryError Unit} {ins : List Row}
    {s : State σ} (h : Node.Draws m ctx store InputLive source env fate ins s) :
    (machine m p).Hands ctx store (Node.Live InputLive source (some env))
      (Listing.pass (fun row => (p.apply env row).map some) ins fate).fate
      (Listing.pass (fun row => (p.apply env row).map some) ins fate).rows s := by
  induction ins generalizing s with
  | nil =>
      refine ⟨h.live, ?_⟩
      intro w hw
      obtain ⟨-, hend⟩ := h.input
      obtain ⟨input', w', hnext, hlive', hw'⟩ := hend w hw
      show ∃ s' w', next m p ctx s w = _ ∧ _
      rw [next, CursorBase.checkNext_eq_ok h.active]
      simp only [Node.onInput, hnext]
      cases fate with
      | error e => exact ⟨_, _, rfl, ⟨by simp [h.active], h.bound, hlive'⟩, hw'⟩
      | ok u => exact ⟨_, _, rfl, Node.live_finish h.active h.bound hlive', hw'⟩
  | cons row ins ih =>
      have hrow : rowOf p s.base row = p.apply env row := by
        rw [rowOf, CursorBase.currentEnv_eq_ok h.bound]
        rfl
      cases happly : p.apply env row with
      | error e =>
          simp only [Listing.pass, happly, Except.map]
          refine ⟨h.live, ?_⟩
          intro w hw
          obtain ⟨-, input', w', hnext, hrest, hw'⟩ := h.input.2 w hw
          refine ⟨{ s with input := input' }, w', ?_, ⟨by simp [h.active], h.bound, hrest.keeps⟩,
            hw'⟩
          show next m p ctx s w = _
          rw [next, CursorBase.checkNext_eq_ok h.active]
          simp only [Node.onInput, hnext, hrow, happly]
          rfl
      | ok out =>
          simp only [Listing.pass, happly, Except.map]
          refine ⟨h.live, ?_⟩
          intro w hw
          have hpending := h.input.length_le_pending hw
          obtain ⟨-, input', w', hnext, hrest, hw'⟩ := h.input.2 w hw
          refine ⟨?_, { s with base := s.base.hand (some out), input := input' }, w', ?_,
            ih ⟨h.active, h.bound, hrest⟩, hw'⟩
          · exact Nat.lt_of_le_of_lt (Listing.length_pass_le _ ins fate) hpending
          · show next m p ctx s w = _
            rw [next, CursorBase.checkNext_eq_ok h.active]
            simp only [Node.onInput, hnext, hrow, happly]

theorem opens {listing : Env → Except QueryError Listing}
    (h : m.Opens ctx store InputLive InputIdle listing) (p : Projection) :
    (machine m p).Opens ctx store (Node.Live InputLive) (Node.Idle InputIdle)
      fun env => (listing env).map fun l =>
        Listing.pass (fun row => (p.apply env row).map some) l.rows l.fate := by
  have hopen : (machine m p).openRun = Node.openRun m id := rfl
  exact Node.opens hopen
    (fun env l => Listing.pass (fun row => (p.apply env row).map some) l.rows l.fate) h
    fun _ _ hdraws => hands p hdraws

end ProjectCursor
end OrderedQuery
