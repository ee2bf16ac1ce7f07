import OrderedQuery.Proofs.Key.Order

/-!
# Leading columns

Columns are compared from the front: the leading ones first, and the others only if these are
equal.
-/

namespace OrderedQuery
namespace Key

@[simp]
theorem compareColumns_nil_left (directions : List Bool) (ws : List Value) :
    compareColumns directions [] ws = .eq := by
  cases directions <;> rfl

@[simp]
theorem compareColumns_nil_right (directions : List Bool) (vs : List Value) :
    compareColumns directions vs [] = .eq := by
  cases directions <;> cases vs <;> rfl

/-- Leading columns are compared first. -/
theorem compareColumns_take (n : Nat) (directions : List Bool) (vs ws : List Value) :
    compareColumns directions vs ws =
      (compareColumns directions (vs.take n) (ws.take n)).then
        (compareColumns (directions.drop n) (vs.drop n) (ws.drop n)) := by
  induction n generalizing directions vs ws with
  | zero =>
      rw [List.take_zero, List.take_zero]
      cases directions <;> rfl
  | succ n ih =>
      cases directions with
      | nil => cases vs <;> cases ws <;> rfl
      | cons d directions =>
          cases vs with
          | nil => simp
          | cons v vs =>
              cases ws with
              | nil => simp
              | cons w ws =>
                  rw [compareColumns, ih directions vs ws, List.take_succ_cons,
                    List.take_succ_cons, compareColumns, Ordering.then_assoc]
                  rfl

/-- Only as many values count as there are directions. -/
theorem compareColumns_take_directions (n : Nat) (directions : List Bool) (vs ws : List Value) :
    compareColumns (directions.take n) vs ws =
      compareColumns directions (vs.take n) (ws.take n) := by
  induction n generalizing directions vs ws with
  | zero => simp [compareColumns]
  | succ n ih =>
      cases directions with
      | nil => rfl
      | cons d directions =>
          cases vs with
          | nil => rfl
          | cons v vs =>
              cases ws with
              | nil => rfl
              | cons w ws =>
                  rw [List.take_succ_cons, List.take_succ_cons, List.take_succ_cons,
                    compareColumns, compareColumns, ih]

/-- What comes first does so by its leading columns, unless these are equal. -/
theorem isLE_compareColumns_take {directions : List Bool} {vs ws : List Value}
    (h : compareColumns directions vs ws = .lt) (n : Nat) :
    (compareColumns (directions.take n) vs ws).isLE := by
  rw [compareColumns_take_directions]
  rw [compareColumns_take n] at h
  cases hleading : compareColumns directions (vs.take n) (ws.take n) with
  | lt => rfl
  | eq => rfl
  | gt =>
      rw [hleading] at h
      cases h

theorem compareColumns_append {directions directions' : List Bool} {vs vs' ws ws' : List Value}
    (hvs : vs.length = directions.length) (hws : ws.length = directions.length) :
    compareColumns (directions ++ directions') (vs ++ vs') (ws ++ ws') =
      (compareColumns directions vs ws).then (compareColumns directions' vs' ws') := by
  have hleading := compareColumns_take_directions directions.length
    (directions ++ directions') vs ws
  rw [List.take_left, List.take_of_length_le hvs.le, List.take_of_length_le hws.le] at hleading
  rw [compareColumns_take directions.length, List.take_left' hvs, List.take_left' hws,
    List.drop_left, List.drop_left' hvs, List.drop_left' hws, hleading]

/-- With every direction turned round the order is reversed. -/
theorem compareColumns_map_not (directions : List Bool) (vs ws : List Value) :
    compareColumns (directions.map (!·)) vs ws = (compareColumns directions vs ws).swap := by
  induction directions generalizing vs ws with
  | nil => rfl
  | cons d directions ih =>
      cases vs with
      | nil => rfl
      | cons v vs =>
          cases ws with
          | nil => rfl
          | cons w ws =>
              rw [List.map_cons, compareColumns, compareColumns, ih, Ordering.swap_then]
              cases d <;> simp [Value.directedCompare]

end Key
end OrderedQuery
