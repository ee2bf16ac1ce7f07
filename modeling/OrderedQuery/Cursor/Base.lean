import OrderedQuery.Binding.Env

/-!
# The protocol all cursors follow

```
idle --open--> active --close--> idle --destroy--> destroyed
                 |
                 +-- next finds no more rows --> idle
```

Opening is allowed while idle, `next` while active, closing until the cursor is destroyed.
Afterwards nothing is allowed.  A refused call changes nothing.
-/

namespace OrderedQuery

/-- What every cursor keeps about itself. -/
structure CursorBase where
  name : String
  state : CursorState
  /-- The environment of the current run. -/
  env : Option Env
  /-- Rows handed out since the cursor was made. -/
  produced : Nat

namespace CursorBase

/-- An idle cursor without an environment. -/
def start (name : String) : CursorBase := ⟨name, .idle, none, 0⟩

/-- The error for an action that the state does not allow. -/
def violation (b : CursorBase) (action : String) : QueryError :=
  .protocol b.name action b.state

/-- From idle to active. -/
def beginOpen (b : CursorBase) : Except QueryError CursorBase :=
  match b.state with
  | .idle => .ok { b with state := .active }
  | _ => .error (b.violation "open")

/-- Requires an active cursor. -/
def checkNext (b : CursorBase) : Except QueryError Unit :=
  match b.state with
  | .active => .ok ()
  | _ => .error (b.violation "next")

/-- From active to idle. -/
def finish (b : CursorBase) : CursorBase :=
  match b.state with
  | .active => { b with state := .idle }
  | _ => b

/-- Counts a row that is handed out, or ends the run if there is none. -/
def hand {α : Type} (b : CursorBase) (row : Option α) : CursorBase :=
  match row with
  | some _ => { b with produced := b.produced + 1 }
  | none => b.finish

/-- Requires a cursor that is not destroyed. -/
def ensureLive (b : CursorBase) (action : String) : Except QueryError Unit :=
  match b.state with
  | .destroyed => .error (b.violation action)
  | _ => .ok ()

/-- From active or idle to idle. -/
def beginClose (b : CursorBase) : Except QueryError CursorBase :=
  match b.state with
  | .destroyed => .error (b.violation "close")
  | _ => .ok { b with state := .idle }

/-- Ends the life of a cursor. -/
def destroy (b : CursorBase) : CursorBase :=
  { b with state := .destroyed, env := none }

/-- Sets the environment of the next run. -/
def bind (b : CursorBase) (env : Option Env) : CursorBase :=
  { b with env := env }

/-- The environment of the current run, which must have been supplied. -/
def currentEnv (b : CursorBase) : Except QueryError Env :=
  match b.env with
  | some env => .ok env
  | none => .error (b.violation "read bindings")

end CursorBase
end OrderedQuery
