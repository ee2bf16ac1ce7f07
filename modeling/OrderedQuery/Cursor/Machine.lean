import OrderedQuery.Binding.Source
import OrderedQuery.Cursor.Base
import OrderedQuery.Query.Context

/-!
# Cursors as machines

A cursor is a state together with the operations on it.  The operations of all cursors over
states of type `σ` form a `Machine σ`.  An operation takes the context of its thread, the
state and the world, and returns a result with the new state and world; it returns them
also when it fails, since a failed operation may have gone part of the way.

Cursors come in two shapes.  A leaf takes its environments from a source.  A node takes them
from its input, which is another cursor.
-/

namespace OrderedQuery

/-- The result of an operation, and what it leaves behind. -/
structure Outcome (σ α : Type) where
  result : Except QueryError α
  state : σ
  world : World

/-- An operation of a cursor with states in `σ`. -/
abbrev Action (σ α : Type) := Context → σ → World → Outcome σ α

/-- The operations of a cursor with states in `σ`. -/
structure Machine (σ : Type) where
  /-- What the cursor keeps about itself. -/
  base : σ → CursorBase
  /-- An idle cursor that takes its environments from a source. -/
  fresh : BindingSource → σ
  /-- At least as many rows as the current run can still return if it comes to an end and the
  store does not change; for an idle cursor, as the next run can return. -/
  pending : Context → σ → World → Nat
  /-- Starts a run in the current environment. -/
  openRun : Action σ Unit
  /-- The next row of the run, or `none` at its end. -/
  next : Action σ (Option Row)
  /-- Ends the run. -/
  closeRun : Action σ Unit
  /-- Ends the life of the cursor. -/
  destroy : Action σ Unit
  /-- Starts the supply of environments. -/
  openBindings : Action σ Unit
  /-- Moves on to the next environment, if there is one. -/
  nextBindings : Action σ (Option Env)
  /-- Ends the supply of environments. -/
  closeBindings : Action σ Unit
  /-- Gives up whatever the cursor holds outside its state when it is simply let go. -/
  letGo : σ → World → World

/-- The first error of two. -/
def firstError (a b : Except QueryError Unit) : Except QueryError Unit :=
  match a with
  | .error e => .error e
  | .ok () => b

/-! ## Leaves -/

/-- The state of a cursor without input; `run` is what it keeps during a run. -/
structure Leaf (ρ : Type) where
  base : CursorBase
  source : BindingSource
  run : ρ

namespace Leaf

variable {ρ : Type}

def openBindings : Action (Leaf ρ) Unit := fun _ s w =>
  match s.base.ensureLive "open bindings" with
  | .error e => ⟨.error e, s, w⟩
  | .ok () => ⟨.ok (), { s with source := s.source.openUp }, w⟩

def nextBindings : Action (Leaf ρ) (Option Env) := fun _ s w =>
  match s.base.ensureLive "next bindings" with
  | .error e => ⟨.error e, s, w⟩
  | .ok () =>
      match s.source.take with
      | (.error e, source) => ⟨.error e, { s with source }, w⟩
      | (.ok env, source) => ⟨.ok env, { s with base := s.base.bind env, source }, w⟩

def closeBindings : Action (Leaf ρ) Unit := fun _ s w =>
  match s.base.ensureLive "close bindings" with
  | .error e => ⟨.error e, s, w⟩
  | .ok () => ⟨.ok (), { s with source := s.source.shut }, w⟩

/-- Destroys a leaf that is closed by `close`. -/
def destroy (close : Action (Leaf ρ) Unit) : Action (Leaf ρ) Unit := fun ctx s w =>
  match s.base.ensureLive "destroy" with
  | .error e => ⟨.error e, s, w⟩
  | .ok () =>
      let closed := close ctx s w
      let s := closed.state
      ⟨closed.result, { s with base := s.base.destroy, source := s.source.shut },
        closed.world⟩

end Leaf

/-! ## Nodes -/

/-- The state of a cursor over an input; `run` is what it keeps during a run. -/
structure Node (ρ σ : Type) where
  base : CursorBase
  input : σ
  run : ρ

namespace Node

variable {ρ σ : Type}

/-- Carries out an operation on the input. -/
def onInput {α : Type} (op : Action σ α) : Action (Node ρ σ) α := fun ctx s w =>
  let o := op ctx s.input w
  ⟨o.result, { s with input := o.state }, o.world⟩

def openBindings (m : Machine σ) : Action (Node ρ σ) Unit := fun ctx s w =>
  match s.base.ensureLive "open bindings" with
  | .error e => ⟨.error e, s, w⟩
  | .ok () => onInput m.openBindings ctx s w

def nextBindings (m : Machine σ) : Action (Node ρ σ) (Option Env) := fun ctx s w =>
  match s.base.ensureLive "next bindings" with
  | .error e => ⟨.error e, s, w⟩
  | .ok () =>
      let o := onInput m.nextBindings ctx s w
      match o.result with
      | .error e => ⟨.error e, o.state, o.world⟩
      | .ok env => ⟨.ok env, { o.state with base := o.state.base.bind env }, o.world⟩

def closeBindings (m : Machine σ) : Action (Node ρ σ) Unit := fun ctx s w =>
  match s.base.ensureLive "close bindings" with
  | .error e => ⟨.error e, s, w⟩
  | .ok () => onInput m.closeBindings ctx s w

/-- Opens the input of a node whose run starts as `run`. -/
def openRun (m : Machine σ) (run : ρ → ρ) : Action (Node ρ σ) Unit := fun ctx s w =>
  match s.base.beginOpen with
  | .error e => ⟨.error e, s, w⟩
  | .ok base =>
      let o := m.openRun ctx s.input w
      match o.result with
      | .error e => ⟨.error e, ⟨base.finish, o.state, run s.run⟩, o.world⟩
      | .ok () => ⟨.ok (), ⟨base, o.state, run s.run⟩, o.world⟩

/-- Closes a node and its input; `run` is what is left of the run. -/
def closeRun (m : Machine σ) (run : ρ → ρ) : Action (Node ρ σ) Unit := fun ctx s w =>
  match s.base.beginClose with
  | .error e => ⟨.error e, s, w⟩
  | .ok base =>
      let o := m.closeRun ctx s.input w
      ⟨o.result, ⟨base, o.state, run s.run⟩, o.world⟩

/-- Destroys a node that is closed by `close`, and its input. -/
def destroy (m : Machine σ) (close : Action (Node ρ σ) Unit) : Action (Node ρ σ) Unit :=
  fun ctx s w =>
    match s.base.ensureLive "destroy" with
    | .error e => ⟨.error e, s, w⟩
    | .ok () =>
        let closed := close ctx s w
        let destroyed := m.destroy ctx closed.state.input closed.world
        ⟨firstError closed.result destroyed.result,
          { closed.state with base := closed.state.base.destroy, input := destroyed.state },
          destroyed.world⟩

end Node

/-! ## Driving a cursor -/

namespace Machine

variable {σ : Type}

/-- Starts the supply of environments and the first run; `false` if there is no
environment. -/
def openTop (m : Machine σ) : Action σ Bool := fun ctx s w =>
  let o := m.openBindings ctx s w
  match o.result with
  | .error e => ⟨.error e, o.state, o.world⟩
  | .ok () =>
      let o := m.nextBindings ctx o.state o.world
      match o.result with
      | .error e => ⟨.error e, o.state, o.world⟩
      | .ok none => ⟨.ok false, o.state, o.world⟩
      | .ok (some _) =>
          let o := m.openRun ctx o.state o.world
          ⟨o.result.map fun () => true, o.state, o.world⟩

/-- Ends the run and the supply of environments; both are tried, and the first error
counts. -/
def closeTop (m : Machine σ) : Action σ Unit := fun ctx s w =>
  let closed := m.closeRun ctx s w
  let unbound := m.closeBindings ctx closed.state closed.world
  ⟨firstError closed.result unbound.result, unbound.state, unbound.world⟩

/-- Takes rows until there are no more or one fails, `fuel` rows at most.  The rows come
first, then what ended the run. -/
def drainWith (m : Machine σ) (ctx : Context) : Nat → σ → World → List Row × Outcome σ Unit
  | 0, s, w => ([], ⟨.error .stalled, s, w⟩)
  | fuel + 1, s, w =>
      let o := m.next ctx s w
      match o.result with
      | .error e => ([], ⟨.error e, o.state, o.world⟩)
      | .ok none => ([], ⟨.ok (), o.state, o.world⟩)
      | .ok (some row) =>
          let (rows, last) := m.drainWith ctx fuel o.state o.world
          (row :: rows, last)

/-- Takes all rows of the current run. -/
def drain (m : Machine σ) (ctx : Context) (s : σ) (w : World) : List Row × Outcome σ Unit :=
  m.drainWith ctx (m.pending ctx s w + 1) s w

/-- The rows of the current run, counted as handed to the caller. -/
def collect (m : Machine σ) : Action σ (List Row) := fun ctx s w =>
  let (rows, o) := m.drain ctx s w
  match o.result with
  | .error e => ⟨.error e, o.state, o.world⟩
  | .ok () => ⟨.ok rows, o.state, o.world.recordProduced rows.length⟩

end Machine
end OrderedQuery
