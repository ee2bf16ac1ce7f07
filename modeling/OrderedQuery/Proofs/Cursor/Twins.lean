import OrderedQuery.Proofs.Cursor.Listing
import OrderedQuery.Proofs.Cursor.Protocol

/-!
# Cursors that cannot be told apart

Two states of a cursor are twins if they differ only in what no further run looks at: the rows
handed out so far, the supply of environments and what a closed run has left behind.
`Machine.Twins` says that opening twins, asking them for rows and closing them returns the same,
leaves the same world behind and leads to twins.  So do whole runs.

A state that is its own twin is a tree of cursors that all have been given the same environment,
and of which none has been destroyed.
-/

namespace OrderedQuery

namespace CursorBase

/-- A cursor called `name` that has been given `env` and has not been destroyed. -/
structure Held (name : String) (env : Option Env) (b : CursorBase) : Prop where
  name : b.name = name
  env : b.env = env
  live : b.state ≠ .destroyed

/-- What every cursor keeps about itself, but for the number of rows handed out. -/
structure Alike (name : String) (env : Option Env) (b b' : CursorBase) : Prop where
  left : b.Held name env
  right : b'.Held name env
  state : b'.state = b.state

variable {name : String} {env : Option Env} {b b' : CursorBase}

theorem Held.withState (h : b.Held name env) {state : CursorState} (hstate : state ≠ .destroyed) :
    Held name env { b with state } := ⟨h.name, h.env, hstate⟩

theorem Held.finish (h : b.Held name env) : b.finish.Held name env :=
  ⟨(finish_name b).trans h.name, (finish_env b).trans h.env, finish_state_ne h.live⟩

namespace Alike

theorem refl (h : b.Held name env) : Alike name env b b := ⟨h, h, rfl⟩

theorem violation (h : Alike name env b b') (action : String) :
    b'.violation action = b.violation action := by
  rw [CursorBase.violation, CursorBase.violation, h.left.name, h.right.name, h.state]

theorem checkNext (h : Alike name env b b') : b'.checkNext = b.checkNext := by
  rw [CursorBase.checkNext, CursorBase.checkNext, h.state, h.violation]

theorem currentEnv (h : Alike name env b b') : b'.currentEnv = b.currentEnv := by
  rw [CursorBase.currentEnv, CursorBase.currentEnv, h.left.env, h.right.env, h.violation]

theorem withState (h : Alike name env b b') {state : CursorState} (hstate : state ≠ .destroyed) :
    Alike name env { b with state } { b' with state } :=
  ⟨h.left.withState hstate, h.right.withState hstate, rfl⟩

theorem active (h : Alike name env b b') :
    Alike name env { b with state := .active } { b' with state := .active } :=
  h.withState nofun

theorem idle (h : Alike name env b b') :
    Alike name env { b with state := .idle } { b' with state := .idle } :=
  h.withState nofun

theorem finish (h : Alike name env b b') : Alike name env b.finish b'.finish := by
  refine ⟨h.left.finish, h.right.finish, ?_⟩
  rw [CursorBase.finish, CursorBase.finish, h.state]
  split
  · rfl
  · exact h.state

theorem hand {α : Type} (h : Alike name env b b') (row : Option α) :
    Alike name env (b.hand row) (b'.hand row) := by
  cases row with
  | none => exact h.finish
  | some _ =>
      exact ⟨⟨h.left.name, h.left.env, h.left.live⟩, ⟨h.right.name, h.right.env, h.right.live⟩,
        h.state⟩

end Alike
end CursorBase

/-- Outcomes with the same result and the same world, and with related states. -/
inductive Outcome.Alike {σ α : Type} (R : σ → σ → Prop) : Outcome σ α → Outcome σ α → Prop
  | intro {s s' : σ} (result : Except QueryError α) (h : R s s') (w : World) :
      Alike R ⟨result, s, w⟩ ⟨result, s', w⟩

namespace Outcome.Alike

variable {σ α : Type} {R : σ → σ → Prop} {o o' : Outcome σ α}

theorem result_eq (h : o.Alike R o') : o'.result = o.result := by
  obtain ⟨result, hstate, w⟩ := h
  rfl

theorem world_eq (h : o.Alike R o') : o'.world = o.world := by
  obtain ⟨result, hstate, w⟩ := h
  rfl

theorem state (h : o.Alike R o') : R o.state o'.state := by
  obtain ⟨result, hstate, w⟩ := h
  exact hstate

end Outcome.Alike

/-- An operation that cannot tell related states apart. -/
def Action.Respects {σ α : Type} (R : σ → σ → Prop) (op : Action σ α) : Prop :=
  ∀ ctx ⦃s s'⦄, R s s' → ∀ w, (op ctx s w).Alike R (op ctx s' w)

/-- No operation of a run can tell twins apart. -/
structure Machine.Twins {σ : Type} (m : Machine σ) (Twin : σ → σ → Prop) : Prop where
  openRun : m.openRun.Respects Twin
  next : m.next.Respects Twin
  closeRun : m.closeRun.Respects Twin
  pending : ∀ ctx {s s'}, Twin s s' → ∀ w, m.pending ctx s' w = m.pending ctx s w

/-- A relation between states of a cursor that have been given the same environment, and of which
the first takes its environments from one source and the second from another. -/
abbrev Kinship (σ : Type) := Option Env → BindingSource → BindingSource → σ → σ → Prop

/-- A state that is its own twin. -/
def Kinship.Held {σ : Type} (Twin : Kinship σ) : Standing σ :=
  fun source env s => Twin env source source s s

/-! ## Leaves -/

namespace Leaf

variable {ρ : Type}

/-- Leaves called `name` that keep the same in states that matter. -/
structure Twin (name : String) (Matters : CursorState → Prop) (env : Option Env)
    (source source' : BindingSource) (s s' : Leaf ρ) : Prop where
  base : CursorBase.Alike name env s.base s'.base
  left : s.source = source
  right : s'.source = source'
  run : Matters s.base.state → s'.run = s.run

variable {name : String} {Matters : CursorState → Prop} {env : Option Env}
  {source source' : BindingSource}

/-- Twins stay twins if they go on with the same run. -/
theorem Twin.go {s s' : Leaf ρ} (h : Twin name Matters env source source' s s')
    {base base' : CursorBase} (hbase : CursorBase.Alike name env base base') (run : ρ) :
    Twin name Matters env source source' { s with base, run } { s' with base := base', run } :=
  ⟨hbase, h.left, h.right, fun _ => rfl⟩

theorem closeInPlace_respects (run : ρ → ρ) (hmatters : Matters .idle → ∀ state, Matters state) :
    (closeInPlace run).Respects (Twin name Matters env source source') := by
  intro ctx s s' h w
  rw [closeInPlace, closeInPlace, CursorBase.beginClose_eq_ok h.base.left.live,
    CursorBase.beginClose_eq_ok h.base.right.live]
  exact .intro _
    ⟨h.base.idle, h.left, h.right, fun hm => congrArg run (h.run (hmatters hm _))⟩ w

end Leaf

/-! ## Nodes -/

namespace Node

variable {ρ σ : Type} {m : Machine σ} {name : String} {env : Option Env} {R : σ → σ → Prop}

/-- Nodes called `name` over twins that have been given `env`.  They keep the same as long as they
are open. -/
structure Twin (name : String) (env : Option Env) (R : σ → σ → Prop) (s s' : Node ρ σ) :
    Prop where
  base : CursorBase.Alike name env s.base s'.base
  input : R s.input s'.input
  run : s.base.state = .active → s'.run = s.run

/-- Nodes over inputs of a kind are of a kind. -/
def kinship (name : String) (InputTwin : Kinship σ) : Kinship (Node ρ σ) :=
  fun env source source' => Twin name env (InputTwin env source source')

theorem openRun_respects (hm : m.Twins R) (run : ρ → ρ) (hrun : ∀ r r' : ρ, run r' = run r) :
    (openRun m run).Respects (Twin name env R) := by
  intro ctx s s' h w
  obtain ⟨hbase, hinput, hkept⟩ := h
  by_cases hidle : s.base.state = .idle
  · rw [openRun, openRun, CursorBase.beginOpen_eq_ok hidle,
      CursorBase.beginOpen_eq_ok (hbase.state.trans hidle)]
    have hopened := hm.openRun ctx hinput w
    dsimp only
    generalize m.openRun ctx s.input w = o, m.openRun ctx s'.input w = o' at hopened
    obtain ⟨result, hopened, w'⟩ := hopened
    cases result with
    | error e => exact .intro _ ⟨hbase.active.finish, hopened, fun _ => hrun _ _⟩ w'
    | ok _ => exact .intro _ ⟨hbase.active, hopened, fun _ => hrun _ _⟩ w'
  · rw [openRun, openRun, CursorBase.beginOpen_eq_error hidle,
      CursorBase.beginOpen_eq_error fun hs => hidle (hbase.state.symm.trans hs), hbase.violation]
    exact .intro _ ⟨hbase, hinput, hkept⟩ w

theorem closeRun_respects (hm : m.Twins R) (run : ρ → ρ) :
    (closeRun m run).Respects (Twin name env R) := by
  intro ctx s s' h w
  rw [closeRun, closeRun, CursorBase.beginClose_eq_ok h.base.left.live,
    CursorBase.beginClose_eq_ok h.base.right.live]
  have hclosed := hm.closeRun ctx h.input w
  dsimp only
  generalize m.closeRun ctx s.input w = o, m.closeRun ctx s'.input w = o' at hclosed
  obtain ⟨result, hclosed, w'⟩ := hclosed
  exact .intro _ ⟨h.base.idle, hclosed, fun hactive => by cases hactive⟩ w'

end Node

/-! ## Runs -/

namespace Machine

variable {σ : Type} {m : Machine σ} {Twin : σ → σ → Prop}

/-- Draining twins gives the same rows, and ends alike. -/
theorem Twins.drainWith (hm : m.Twins Twin) (ctx : Context) (fuel : Nat) {s s' : σ}
    (h : Twin s s') (w : World) :
    (m.drainWith ctx fuel s' w).1 = (m.drainWith ctx fuel s w).1 ∧
      (m.drainWith ctx fuel s w).2.Alike Twin (m.drainWith ctx fuel s' w).2 := by
  induction fuel generalizing s s' w with
  | zero => exact ⟨rfl, .intro _ h w⟩
  | succ fuel ih =>
      have hnext := hm.next ctx h w
      rw [Machine.drainWith, Machine.drainWith]
      generalize m.next ctx s w = o, m.next ctx s' w = o' at hnext
      obtain ⟨result, hnext, w'⟩ := hnext
      cases result with
      | error e => exact ⟨rfl, .intro _ hnext w'⟩
      | ok row =>
          cases row with
          | none => exact ⟨rfl, .intro _ hnext w'⟩
          | some row =>
              obtain ⟨hrows, hrest⟩ := ih hnext w'
              exact ⟨congrArg (row :: ·) hrows, hrest⟩

/-- Whole runs of twins give the same rows, and end alike. -/
theorem Twins.runWith (hm : m.Twins Twin) (ctx : Context) (fuel : Nat) {s s' : σ}
    (h : Twin s s') (w : World) :
    (m.runWith ctx fuel s' w).1 = (m.runWith ctx fuel s w).1 ∧
      (m.runWith ctx fuel s w).2.Alike Twin (m.runWith ctx fuel s' w).2 := by
  have hopened := hm.openRun ctx h w
  rw [Machine.runWith, Machine.runWith]
  generalize m.openRun ctx s w = o, m.openRun ctx s' w = o' at hopened
  obtain ⟨result, hopened, w'⟩ := hopened
  cases result with
  | error e => exact ⟨rfl, .intro _ hopened w'⟩
  | ok _ => exact hm.drainWith ctx fuel hopened w'

theorem Twins.collect (hm : m.Twins Twin) : m.collect.Respects Twin := by
  intro ctx s s' h w
  have hdrain := hm.drainWith ctx (m.pending ctx s w + 1) h w
  rw [Machine.collect, Machine.collect, Machine.drain, Machine.drain, hm.pending ctx h]
  generalize m.drainWith ctx _ s w = x, m.drainWith ctx _ s' w = x' at hdrain
  obtain ⟨rows, o⟩ := x
  obtain ⟨rows', o'⟩ := x'
  obtain ⟨rfl, ⟨result, hdrained, w'⟩⟩ := hdrain
  cases result with
  | error e => exact .intro _ hdrained w'
  | ok _ => exact .intro _ hdrained _

end Machine
end OrderedQuery
