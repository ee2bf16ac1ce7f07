import OrderedQuery.Store.Basic

/-!
# Ranges that the map refuses

The ordered map behind a store has no answer for a range whose ends are out of order.  A scan
looks at the ends of its stored range first, and asks for nothing if they cross or if no entry
is wanted.  `Store.scan?` is a scan that asks such a map: it has no result where the map refuses.
-/

namespace OrderedQuery

/-- The key of a bound that has one. -/
def Bound.key? : Bound → Option Bytes
  | unbounded => none
  | included k => some k
  | excluded k => some k

namespace KeyRange

/-- The low key does not lie above the high one, and the two are the same only if both bounds
include it. -/
def InOrder (r : KeyRange) : Prop :=
  ∀ low ∈ r.low.key?, ∀ high ∈ r.high.key?,
    low ≤ high ∧ (low = high → r = ⟨.included low, .included high⟩)

instance (r : KeyRange) : Decidable r.InOrder :=
  inferInstanceAs (Decidable (∀ low ∈ r.low.key?, ∀ high ∈ r.high.key?,
    low ≤ high ∧ (low = high → r = ⟨.included low, .included high⟩)))

end KeyRange

namespace Store

/-- What the map answers when it is asked for a range. -/
def answer? (s : Store) (range : KeyRange) : Option (List Entry) :=
  if range.InOrder then some (s.within range) else none

/-- The first `limit` entries of a table that lie in a range, in scan direction, strictly
after `resume` if it is given, as the map answers. -/
def scan? (s : Store) (table : String) (range : KeyRange) (resume : Option Bytes)
    (direction : Direction) (limit : Nat) : Option (List Entry) := do
  let asked := Layout.storedRange table range resume direction
  if limit = 0 || asked.isEmpty then
    some []
  else
    let found ← s.answer? asked
    let visited := match direction with
      | .forward => found
      | .backward => found.reverse
    some ((visited.filterMap tableEntry?).take limit)

end Store
end OrderedQuery
