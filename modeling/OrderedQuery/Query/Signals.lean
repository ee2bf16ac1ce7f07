/-!
# Cancellation

Tokens form a tree.  Cancelling a token cancels the tokens below it and never those above.
A token is the list of the flags on its way to the root, its own flag first, and is
cancelled as soon as one of them is raised.

An alarm stands for somebody outside who cancels at a moment of their own choosing.  The
moment is counted in polls, since nothing else can tell moments apart.
-/

namespace OrderedQuery

/-- A cancellation token: its own flag and those of its ancestors. -/
structure Token where
  flags : List Nat
  deriving DecidableEq, Repr, Inhabited

/-- Which flags are raised. -/
structure Signals where
  raised : List Nat
  /-- Flags handed out so far. -/
  issued : Nat
  /-- A flag that is raised by the poll that comes after the given number of others. -/
  alarm : Option (Nat × Nat)
  deriving DecidableEq, Repr, Inhabited

namespace Signals

/-- No flags at all. -/
def none : Signals := ⟨[], 0, .none⟩

/-- A new token without ancestors. -/
def newRoot (s : Signals) : Token × Signals :=
  (⟨[s.issued]⟩, { s with issued := s.issued + 1 })

/-- A new token below `t`. -/
def newChild (s : Signals) (t : Token) : Token × Signals :=
  (⟨s.issued :: t.flags⟩, { s with issued := s.issued + 1 })

/-- Raises the flag of a token. -/
def cancel (s : Signals) (t : Token) : Signals :=
  match t.flags with
  | [] => s
  | flag :: _ => { s with raised := flag :: s.raised }

/-- The token or one of its ancestors was cancelled. -/
def isCancelled (s : Signals) (t : Token) : Bool :=
  t.flags.any fun flag => decide (flag ∈ s.raised)

/-- Lets the moment of one poll pass. -/
def tick (s : Signals) : Signals :=
  match s.alarm with
  | .none => s
  | some (0, flag) => { s with raised := flag :: s.raised, alarm := .none }
  | some (polls + 1, flag) => { s with alarm := some (polls, flag) }

end Signals
end OrderedQuery
