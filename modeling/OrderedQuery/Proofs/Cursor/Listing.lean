import OrderedQuery.Proofs.Cursor.Conduct

/-!
# What a run hands out

A listing is a list of rows together with the way it ends: properly, or by an error that
comes instead of a further row.  `Machine.Hands` says that an open cursor hands out the rows
of a listing one by one and then ends as the listing does, in every calm world.  A world is
calm for a context if nothing is cancelled and the session of the context sees a given
store.
-/

namespace OrderedQuery

/-- Rows, and what comes after them. -/
structure Listing where
  rows : List Row
  fate : Except QueryError Unit

namespace Listing

/-- The listing with one more row in front. -/
def cons (row : Row) (l : Listing) : Listing := ⟨row :: l.rows, l.fate⟩

/-- At most one row is computed from each row, until that fails. -/
def pass (f : Row → Except QueryError (Option Row)) :
    List Row → Except QueryError Unit → Listing
  | [], fate => ⟨[], fate⟩
  | row :: rows, fate =>
      match f row with
      | .error e => ⟨[], .error e⟩
      | .ok none => pass f rows fate
      | .ok (some out) => cons out (pass f rows fate)

end Listing

/-- Nothing disturbs the context, and its session sees `store`. -/
structure Calm (ctx : Context) (store : Store) (w : World) : Prop where
  silent : w.signals.alarm = none
  live : w.signals.isCancelled ctx.token = false
  view : w.engine.view ctx.session = store

theorem Signals.tick_of_silent {s : Signals} (h : s.alarm = .none) : s.tick = s := by
  rw [Signals.tick, h]

/-- A look at the token finds nothing and changes nothing. -/
theorem Calm.check {ctx : Context} {store : Store} {w : World} (h : Calm ctx store w) :
    w.check ctx = (.ok (), w) := by
  simp [World.check, Signals.tick_of_silent h.silent, h.live]

theorem Calm.recordRead {ctx : Context} {store : Store} {w : World} (h : Calm ctx store w)
    (n : Nat) : Calm ctx store (w.recordRead n) :=
  ⟨h.silent, h.live, h.view⟩

namespace Machine

variable {σ : Type}

/-- The open cursor hands out `rows`, one by one, and then ends as `fate` says.  All along,
its state keeps a condition, and its bound on what is left to come is large enough. -/
def Hands (m : Machine σ) (ctx : Context) (store : Store) (Keeps : σ → Prop)
    (fate : Except QueryError Unit) : List Row → σ → Prop
  | [], s => Keeps s ∧ ∀ w, Calm ctx store w →
      ∃ s' w', m.next ctx s w = ⟨fate.map fun _ => none, s', w'⟩ ∧ Keeps s' ∧
        Calm ctx store w'
  | row :: rows, s => Keeps s ∧ ∀ w, Calm ctx store w →
      rows.length < m.pending ctx s w ∧
        ∃ s' w', m.next ctx s w = ⟨.ok (some row), s', w'⟩ ∧
          Hands m ctx store Keeps fate rows s' ∧ Calm ctx store w'

variable {m : Machine σ} {ctx : Context} {store : Store} {Keeps : σ → Prop}
  {fate : Except QueryError Unit}

theorem Hands.keeps {rows : List Row} {s : σ} (h : m.Hands ctx store Keeps fate rows s) :
    Keeps s := by
  cases rows with
  | nil => exact h.1
  | cons row rows => exact h.1

theorem Hands.length_le_pending {rows : List Row} {s : σ}
    (h : m.Hands ctx store Keeps fate rows s) {w : World} (hw : Calm ctx store w) :
    rows.length ≤ m.pending ctx s w := by
  cases rows with
  | nil => exact Nat.zero_le _
  | cons row rows => exact (h.2 w hw).1

/-- An outcome is the first row of a listing, after which `R` holds of the rest, or the end
of the listing. -/
def Finds (ctx : Context) (store : Store) (Keeps : σ → Prop) (R : Listing → σ → Prop)
    (l : Listing) (o : Outcome σ (Option Row)) : Prop :=
  Calm ctx store o.world ∧
    match l.rows with
    | [] => o.result = l.fate.map (fun _ => none) ∧ Keeps o.state
    | row :: rows => o.result = .ok (some row) ∧ R ⟨rows, l.fate⟩ o.state

/-- A cursor hands out a listing if every call finds its first row or its end. -/
theorem Hands.of_finds {R : Listing → σ → Prop} (hkeeps : ∀ l s, R l s → Keeps s)
    (hpending : ∀ l s, R l s → ∀ w, Calm ctx store w → l.rows.length ≤ m.pending ctx s w)
    (hnext : ∀ l s, R l s → ∀ w, Calm ctx store w →
      Finds ctx store Keeps R l (m.next ctx s w))
    {l : Listing} {s : σ} (h : R l s) : m.Hands ctx store Keeps l.fate l.rows s := by
  obtain ⟨rows, fate⟩ := l
  induction rows generalizing s with
  | nil =>
      refine ⟨hkeeps _ s h, ?_⟩
      intro w hw
      obtain ⟨hw', hresult, hkeeps'⟩ := hnext _ s h w hw
      exact ⟨_, _, by rw [← hresult], hkeeps', hw'⟩
  | cons row rows ih =>
      refine ⟨hkeeps _ s h, ?_⟩
      intro w hw
      obtain ⟨hw', hresult, hrest⟩ := hnext _ s h w hw
      exact ⟨hpending _ s h w hw, _, _, by rw [← hresult], ih hrest, hw'⟩

/-- Enough fuel drains the listing. -/
theorem Hands.drainWith {rows : List Row} {s : σ} (h : m.Hands ctx store Keeps fate rows s)
    {w : World} (hw : Calm ctx store w) {fuel : Nat} (hfuel : rows.length < fuel) :
    ∃ s' w', m.drainWith ctx fuel s w = (rows, ⟨fate, s', w'⟩) ∧ Keeps s' ∧
      Calm ctx store w' := by
  induction rows generalizing s w fuel with
  | nil =>
      obtain ⟨fuel, rfl⟩ := Nat.exists_eq_succ_of_ne_zero (Nat.ne_of_gt hfuel)
      obtain ⟨s', w', hnext, hkeeps, hw'⟩ := h.2 w hw
      refine ⟨s', w', ?_, hkeeps, hw'⟩
      rw [Machine.drainWith]
      simp only [hnext]
      cases fate with
      | error e => rfl
      | ok u => rfl
  | cons row rows ih =>
      obtain ⟨fuel, rfl⟩ := Nat.exists_eq_succ_of_ne_zero (Nat.ne_of_gt
        (Nat.lt_of_le_of_lt (Nat.zero_le _) hfuel))
      obtain ⟨-, s₁, w₁, hnext, hrest, hw₁⟩ := h.2 w hw
      obtain ⟨s', w', hdrain, hkeeps, hw'⟩ :=
        ih hrest hw₁ (Nat.lt_of_succ_lt_succ hfuel)
      refine ⟨s', w', ?_, hkeeps, hw'⟩
      rw [Machine.drainWith]
      simp only [hnext, hdrain]

/-- Draining an open cursor gives its listing. -/
theorem Hands.drain {rows : List Row} {s : σ} (h : m.Hands ctx store Keeps fate rows s)
    {w : World} (hw : Calm ctx store w) :
    ∃ s' w', m.drain ctx s w = (rows, ⟨fate, s', w'⟩) ∧ Keeps s' ∧ Calm ctx store w' :=
  h.drainWith hw (Nat.lt_succ_of_le (h.length_le_pending hw))

/-- Opens a cursor and takes the rows of the run, `fuel` rows at most. -/
def runWith (m : Machine σ) (ctx : Context) (fuel : Nat) (s : σ) (w : World) :
    List Row × Outcome σ Unit :=
  let o := m.openRun ctx s w
  match o.result with
  | .error _ => ([], o)
  | .ok () => m.drainWith ctx fuel o.state o.world

/-- Opening an idle cursor either fails as `listing` does, or gives an open cursor that hands
the listing out. -/
def Opens (m : Machine σ) (ctx : Context) (store : Store) (Live Idle : Standing σ)
    (listing : Env → Except QueryError Listing) : Prop :=
  ∀ ⦃source env s⦄, Idle source (some env) s → ∀ ⦃w⦄, Calm ctx store w →
    match listing env with
    | .error e => ∃ s' w', m.openRun ctx s w = ⟨.error e, s', w'⟩
    | .ok l => ∃ s' w', m.openRun ctx s w = ⟨.ok (), s', w'⟩ ∧
        m.Hands ctx store (Live source (some env)) l.fate l.rows s' ∧ Calm ctx store w'

end Machine
end OrderedQuery
