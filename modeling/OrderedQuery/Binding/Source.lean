import OrderedQuery.Binding.Env

/-!
# Sources of environments

A source supplies the environments a cursor runs in, one run each.  It must be opened
first, and opening it again starts from the beginning.
-/

namespace OrderedQuery

/-- A supply of environments. -/
inductive BindingSource where
  /-- One environment; `pending` tells that it has not been taken yet. -/
  | single (env : Env) (isOpen pending : Bool)
  /-- Several environments, of which `next` have been taken. -/
  | several (envs : List Env) (next : Nat) (isOpen : Bool)

namespace BindingSource

/-- A source of one environment. -/
def ofEnv (env : Env) : BindingSource := .single env false false

/-- A source of several environments. -/
def ofEnvs (envs : List Env) : BindingSource := .several envs 0 false

/-- The name of a source in reports. -/
def name : BindingSource → String
  | single .. => "SingletonBindingsCursor"
  | several .. => "MultipleBindingsCursor"

/-- The number of environments between opening and the end. -/
def size : BindingSource → Nat
  | single .. => 1
  | several envs _ _ => envs.length

/-- Starts the supply. -/
def openUp : BindingSource → BindingSource
  | single env _ _ => .single env true true
  | several envs _ _ => .several envs 0 true

/-- Takes the next environment. -/
def take : BindingSource → Except QueryError (Option Env) × BindingSource
  | single env true pending =>
      (.ok (if pending then some env else none), .single env true false)
  | several envs next true =>
      match envs[next]? with
      | some env => (.ok (some env), .several envs (next + 1) true)
      | none => (.ok none, .several envs next true)
  | s => (.error (.protocol s.name "advance bindings" .idle), s)

/-- Ends the supply. -/
def shut : BindingSource → BindingSource
  | single env _ _ => .single env false false
  | several envs next _ => .several envs next false

end BindingSource
end OrderedQuery
