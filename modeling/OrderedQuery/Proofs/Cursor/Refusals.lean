import OrderedQuery.Proofs.Cursor.Protocol
import OrderedQuery.Proofs.Plan.Failures

/-!
# Cursors that do not refuse each other

Between a cursor and the one above it, calls follow an order: the cursor is opened while it is
idle and has an environment, it is then asked for rows until there are no more or one fails, and
at last it is closed.  `Machine.Cooperates` says that a caller that keeps to this order is never
told of a refused call, neither by the cursor nor by one below it.
-/

namespace OrderedQuery

variable {σ ρ α : Type}

/-- The error does not report a refused call. -/
def QueryError.Proper : QueryError → Prop
  | protocol .. => False
  | _ => True

theorem QueryError.Proper.ne_protocol {e : QueryError} (h : e.Proper) (cursor action : String)
    (state : CursorState) : e ≠ .protocol cursor action state := by
  rintro rfl
  exact h

/-- A computation in which no call is refused. -/
abbrev FailsProperly (x : Except QueryError α) : Prop := FailsWith QueryError.Proper x

theorem QueryError.OfData.proper {e : QueryError} (h : e.OfData) : e.Proper := by
  cases e with
  | protocol cursor action state => exact h
  | _ => trivial

theorem FailsWith.properly {x : Except QueryError α} (h : FailsOnData x) : FailsProperly x :=
  h.mono fun _ he => he.proper

theorem NoRefusal.failsProperly {result : Except QueryError Unit} (h : NoRefusal result) :
    FailsProperly result := by
  rintro e rfl
  cases e with
  | protocol cursor action state => exact h cursor action state rfl
  | _ => trivial

theorem World.check_failsProperly (w : World) (ctx : Context) : FailsProperly (w.check ctx).1 := by
  unfold check
  dsimp only
  split
  · exact .error trivial
  · exact .ok _

theorem World.deriveContext_failsProperly (w : World) (ctx : Context) (t : Token) :
    FailsProperly (w.deriveContext ctx t).1 := by
  have hchecked := w.check_failsProperly ctx
  unfold deriveContext
  generalize w.check ctx = x at hchecked
  obtain ⟨e | _, w'⟩ := x
  · exact .error hchecked.of_error
  · exact .ok _

theorem World.hire_failsProperly (w : World) (ctx : Context) (t : Token) (number : Nat) :
    FailsProperly (w.hire ctx t number).1 := by
  have hderived := w.deriveContext_failsProperly ctx t
  unfold hire
  generalize w.deriveContext ctx t = x at hderived
  obtain ⟨e | context, w'⟩ := x
  · exact .error hderived.of_error
  · dsimp only
    split
    · exact .error trivial
    · exact .ok _

theorem World.beginWork_failsProperly (w : World) (ctx : Context) :
    FailsProperly (w.beginWork ctx).1 := by
  unfold beginWork
  dsimp only
  split
  · exact .error trivial
  · split
    · exact .ok _
    · exact .error trivial

theorem World.commitWork_failsProperly (w : World) (ctx : Context) :
    FailsProperly (w.commitWork ctx).1 := by
  unfold commitWork
  dsimp only
  split
  · exact .error trivial
  · split
    · exact .ok _
    · exact .error trivial

theorem CursorBase.currentEnv_failsProperly {b : CursorBase} (h : b.env ≠ none) :
    FailsProperly b.currentEnv := by
  obtain ⟨env, henv⟩ := Option.ne_none_iff_exists'.mp h
  rw [currentEnv_eq_ok henv]
  exact .ok env

/-- No call is refused during the operation, and what it returns goes with what it leaves
behind. -/
structure Outcome.Serves (o : Outcome σ α) (Q : α → σ → Prop) : Prop where
  proper : FailsProperly o.result
  returns : ∀ a, o.result = .ok a → Q a o.state

namespace Outcome.Serves

variable {Q Q' : α → σ → Prop} {s : σ} {w : World}

theorem mono {o : Outcome σ α} (h : o.Serves Q) (hQ : ∀ a s, Q a s → Q' a s) : o.Serves Q' :=
  ⟨h.proper, fun a ha => hQ a _ (h.returns a ha)⟩

theorem failed {e : QueryError} (h : e.Proper) : Serves ⟨.error e, s, w⟩ Q :=
  ⟨.error h, nofun⟩

theorem returned {a : α} (h : Q a s) : Serves ⟨.ok a, s, w⟩ Q := by
  refine ⟨.ok a, ?_⟩
  rintro _ ⟨⟩
  exact h

end Outcome.Serves

/-- No call is refused during a request for a row, and it leaves a state behind of which `P` holds
if there was a row. -/
def Outcome.ServesRow (o : Outcome σ (Option Row)) (P : σ → Prop) : Prop :=
  o.Serves fun row s => row ≠ none → P s

namespace Outcome.ServesRow

variable {P : σ → Prop} {s : σ} {w : World}

theorem failed {e : QueryError} (h : e.Proper) : ServesRow ⟨.error e, s, w⟩ P :=
  Serves.failed h

theorem ended : ServesRow ⟨.ok none, s, w⟩ P :=
  Serves.returned fun h => absurd rfl h

theorem handed {row : Option Row} (h : ∀ r, row = some r → P s) : ServesRow ⟨.ok row, s, w⟩ P := by
  refine Serves.returned fun hrow => ?_
  obtain ⟨r, hr⟩ := Option.ne_none_iff_exists'.mp hrow
  exact h r hr

theorem of_row {o : Outcome σ (Option Row)} (h : o.ServesRow P) {row : Row}
    (hrow : o.result = .ok (some row)) : P o.state :=
  h.returns _ hrow nofun

end Outcome.ServesRow

/-- A cursor does not refuse the calls of one that keeps to their order: it can be opened in the
states that are `Ready`, and asked for a row in those that are `Running`.  `tree` gives the states
of the cursor and of all cursors below it. -/
structure Machine.Cooperates (m : Machine σ) (tree : σ → List CursorState)
    (Ready Running : σ → Prop) : Prop where
  ready : ∀ {s}, Ready s → NoneDestroyed (tree s)
  running : ∀ {s}, Running s → NoneDestroyed (tree s)
  openRun : ∀ ctx {s} w, Ready s → (m.openRun ctx s w).Serves fun _ s' => Running s'
  /-- Once there is no row, nothing more is asked for. -/
  next : ∀ ctx {s} w, Running s → (m.next ctx s w).ServesRow Running
  closeBindings : ∀ ctx {s} w, NoneDestroyed (tree s) →
    FailsProperly (m.closeBindings ctx s w).result

/-! ## Leaves -/

namespace Leaf

/-- A leaf that can be opened. -/
def Ready (s : Leaf ρ) : Prop := s.base.state = .idle ∧ s.base.env ≠ none

/-- A leaf without threads of its own that can be asked for a row. -/
def Running (s : Leaf ρ) : Prop := s.base.state = .active

theorem noneDestroyed {s : Leaf ρ} (h : s.base.state ≠ .destroyed) :
    NoneDestroyed [s.base.state] := by
  intro t ht
  rwa [List.mem_singleton.mp ht]

theorem closeBindings_failsProperly (ctx : Context) {s : Leaf ρ} (w : World)
    (h : NoneDestroyed [s.base.state]) : FailsProperly (closeBindings ctx s w).result := by
  rw [closeBindings, CursorBase.ensureLive_eq_ok (h _ (List.mem_singleton_self _))]
  exact .ok _

end Leaf

/-! ## Nodes -/

namespace Node

variable {m : Machine σ} {tree : σ → List CursorState} {InputReady InputRunning : σ → Prop}

/-- A node that can be opened with its input. -/
def Ready (InputReady : σ → Prop) (s : Node ρ σ) : Prop :=
  s.base.state = .idle ∧ s.base.env ≠ none ∧ InputReady s.input

/-- A node that passes a request for a row on to its input. -/
def Running (InputRunning : σ → Prop) (s : Node ρ σ) : Prop :=
  s.base.state = .active ∧ s.base.env ≠ none ∧ InputRunning s.input

theorem ready_noneDestroyed (hm : m.Cooperates tree InputReady InputRunning) {s : Node ρ σ}
    (h : Ready InputReady s) : NoneDestroyed (treeOf tree s) :=
  noneDestroyed_treeOf.mpr ⟨by rw [h.1]; decide, hm.ready h.2.2⟩

theorem running_noneDestroyed (hm : m.Cooperates tree InputReady InputRunning) {s : Node ρ σ}
    (h : Running InputRunning s) : NoneDestroyed (treeOf tree s) :=
  noneDestroyed_treeOf.mpr ⟨by rw [h.1]; decide, hm.running h.2.2⟩

/-- Opening a node opens its input. -/
theorem openRun_serves (hm : m.Cooperates tree InputReady InputRunning) (run : ρ → ρ)
    (ctx : Context) {s : Node ρ σ} (w : World) (h : Ready InputReady s) :
    (openRun m run ctx s w).Serves fun _ s' =>
      s'.run = run s.run ∧ Running InputRunning s' := by
  obtain ⟨hidle, henv, hinput⟩ := h
  have hopened := hm.openRun ctx w hinput
  rw [openRun, CursorBase.beginOpen_eq_ok hidle]
  dsimp only
  generalize m.openRun ctx s.input w = o at hopened
  obtain ⟨e | _, input, w'⟩ := o
  · exact .failed hopened.proper.of_error
  · exact .returned ⟨rfl, rfl, henv, hopened.returns _ rfl⟩

theorem closeBindings_failsProperly (hm : m.Cooperates tree InputReady InputRunning)
    (ctx : Context) {s : Node ρ σ} (w : World) (h : NoneDestroyed (treeOf tree s)) :
    FailsProperly (closeBindings m ctx s w).result := by
  obtain ⟨hs, hinput⟩ := noneDestroyed_treeOf.mp h
  rw [closeBindings, CursorBase.ensureLive_eq_ok hs]
  exact hm.closeBindings ctx w hinput

end Node
end OrderedQuery
