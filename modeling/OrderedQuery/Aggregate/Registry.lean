import OrderedQuery.Aggregate.Function

/-!
# Registries of aggregate functions

Functions are looked up by name.  The letters `A` to `Z` count as their lower-case forms,
and a function registered later replaces one with the same name.
-/

namespace OrderedQuery

/-- A collection of aggregate functions, the latest first. -/
structure Registry where
  functions : List AggregateFunction

namespace Registry

/-- The registry without functions. -/
def empty : Registry := ⟨[]⟩

/-- Names that differ only in the case of ASCII letters are the same. -/
def fold (name : String) : String :=
  name.map Char.toLower

theorem fold_beq (a b : String) :
    (fold a == fold b) = (a.toList.map Char.toLower == b.toList.map Char.toLower) := by
  rw [Bool.eq_iff_iff, beq_iff_eq, beq_iff_eq, ← String.toList_inj, fold, fold,
    String.toList_map, String.toList_map]

/-- Adds a function. -/
def register (r : Registry) (f : AggregateFunction) : Registry :=
  ⟨f :: r.functions⟩

/-- Adds several functions in turn. -/
def registerAll (r : Registry) (fs : List AggregateFunction) : Registry :=
  fs.foldl register r

/-- The registry of the functions that are there from the start. -/
def builtins : Registry :=
  empty.registerAll AggregateFunction.builtins

/-- The function of a name. -/
def get? (r : Registry) (name : String) : Option AggregateFunction :=
  r.functions.find? fun f => fold f.name == fold name

/-- The function of a name, which has to exist. -/
def get (r : Registry) (name : String) : Except QueryError AggregateFunction :=
  match r.get? name with
  | some f => .ok f
  | none => .error (.unknownFunction name)

end Registry
end OrderedQuery
