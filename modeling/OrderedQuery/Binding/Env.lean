import OrderedQuery.Row.Basic

/-!
# Bindings

An environment holds what is bound at numbered positions: scalars or rows.  Environments
are nested.  A fork starts empty, sees everything its parent binds, and can put something
else in its place without changing the parent.
-/

namespace OrderedQuery

/-- The largest position a plan may read. -/
def maxPosition : Nat := 255

/-- What is bound at a position. -/
inductive Binding where
  | row (r : Row)
  | value (v : Value)

/-- The bindings of one environment alone. -/
abbrev Scope := List (Nat × Binding)

/-- An environment: its own bindings and those of its ancestors, the nearest first. -/
structure Env where
  own : Scope
  outer : List Scope

namespace Env

/-- The environment without bindings and without a parent. -/
def root : Env := ⟨[], []⟩

instance : Inhabited Env := ⟨root⟩

/-- A new environment inside another one. -/
def fork (e : Env) : Env := ⟨[], e.own :: e.outer⟩

/-- The environment this one was forked from. -/
def parent? (e : Env) : Option Env :=
  match e.outer with
  | [] => none
  | own :: outer => some ⟨own, outer⟩

/-- The number of forks between the root and this environment. -/
def depth (e : Env) : Nat := e.outer.length

/-- Binds a position. -/
def set (e : Env) (position : Nat) (b : Binding) : Env :=
  { e with own := (position, b) :: e.own.filter fun (p, _) => p != position }

/-- What the nearest environment that binds a position binds there. -/
def get? (e : Env) (position : Nat) : Option Binding :=
  (e.own :: e.outer).findSome? fun scope => scope.lookup position

/-- Something is bound at a position. -/
def isBound (e : Env) (position : Nat) : Bool :=
  (e.get? position).isSome

/-- The row bound at a position. -/
def row (e : Env) (position : Nat) : Except QueryError Row :=
  match e.get? position with
  | some (.row r) => .ok r
  | some (.value v) => .error (.value (.valueForRow position v))
  | none => .error (.unbound position)

/-- The scalar bound at a position. -/
def value (e : Env) (position : Nat) : Except QueryError Value :=
  match e.get? position with
  | some (.value v) => .ok v
  | some (.row _) => .error (.value (.rowForValue position))
  | none => .error (.unbound position)

end Env
end OrderedQuery
