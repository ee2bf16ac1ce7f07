import OrderedQuery.Index.Bounds
import OrderedQuery.Proofs.Key.Accepted

/-!
# Operations within their bounds

Where the numbers of a definition fit its list of columns, the operations that check every position
always have an answer, the one of the operations that do not check.  It takes no more than the count
of declared columns and the end of the coordinates to lie within the list: reading a key stays
within its bytes by itself.
-/

namespace OrderedQuery

theorem slice?_eq_some {α : Type} {xs : List α} {start stop : Nat} (hstart : start ≤ stop)
    (hstop : stop ≤ xs.length) : slice? xs start stop = some ((xs.take stop).drop start) :=
  if_pos ⟨hstart, hstop⟩

theorem slice?_to_end {α : Type} {xs : List α} {start : Nat} (hstart : start ≤ xs.length) :
    slice? xs start xs.length = some (xs.drop start) := by
  rw [slice?_eq_some hstart (Nat.le_refl _), List.take_length]

theorem slice?_from_start {α : Type} {xs : List α} {stop : Nat} (hstop : stop ≤ xs.length) :
    slice? xs 0 stop = some (xs.take stop) :=
  slice?_eq_some (Nat.zero_le _) hstop

theorem slice?_group {α : Type} {xs : List α} {g : CoordinateGroup} (h : g.after ≤ xs.length) :
    slice? xs g.first g.after = some ((xs.drop g.first).take g.dimensions) := by
  have hordered : g.first ≤ g.after := Nat.le_add_right _ _
  have hdimensions : g.after - g.first = g.dimensions :=
    Nat.add_sub_cancel_left g.first g.dimensions
  rw [slice?_eq_some hordered h, List.drop_take, hdimensions]

theorem le_of_slice? {α : Type} {xs ys : List α} {start stop : Nat}
    (h : slice? xs start stop = some ys) : start ≤ stop ∧ stop ≤ xs.length := by
  unfold slice? at h
  split at h
  · assumption
  · cases h

theorem word?_eq_some {n : Nat} (h : n < 2 ^ 64) : word? n = some n :=
  if_pos h

theorem difference?_eq_some {a b : Nat} (h : b ≤ a) : difference? a b = some (a - b) :=
  if_pos h

/-- Reading goes on where the last value ended, which is never beyond the key. -/
theorem Key.decodeFrom?_eq {key : Bytes} {directions : List Bool} {offset : Nat}
    (h : offset ≤ key.length) :
    decodeFrom? key directions offset =
      some ((decodeAll directions (key.drop offset)).map fun (vs, rest) =>
        (vs, key.length - rest.length)) := by
  induction directions generalizing offset with
  | nil =>
      have hoffset : key.length - (key.drop offset).length = offset := by
        rw [List.length_drop]
        omega
      rw [decodeFrom?, decodeAll, Except.map]
      dsimp only
      rw [hoffset]
  | cons descending more ih =>
      rw [decodeFrom?, slice?_to_end h, decodeAll]
      simp only [Option.bind_eq_bind, Option.bind_some]
      cases hread : decode descending (key.drop offset) with
      | error fault => rfl
      | ok found =>
          obtain ⟨v, left⟩ := found
          obtain ⟨taken, hbytes, -⟩ := decode_eq_ok hread
          have hlengths := congrArg List.length hbytes
          rw [List.length_append] at hlengths
          have hdrop := List.length_drop (i := offset) (l := key)
          have hnext : key.drop (offset + taken.length) = left := by
            rw [← List.drop_drop, hbytes, List.drop_left]
          have hused : (key.drop offset).length - left.length = taken.length := by omega
          simp only [bind, Except.bind]
          rw [difference?_eq_some (by omega), Option.bind_some, hused, ih (by omega), hnext,
            Option.bind_some]
          cases decodeAll more left <;> rfl

namespace Index

variable {ix : Index}

theorem encodeChecked?_eq (hafter : ∀ g, ix.spatial = some g → g.after < 2 ^ 64)
    (values : List Value) : ix.encodeChecked? values = some (ix.encodeChecked values) := by
  unfold encodeChecked? encodeChecked
  cases hg : ix.spatial with
  | none => rfl
  | some g =>
      dsimp only
      rw [word?_eq_some (hafter g hg), Option.bind_eq_bind, Option.bind_some]
      by_cases hsplit : g.first < values.length ∧ values.length < g.after
      · rw [if_pos hsplit, if_pos hsplit]
      · rw [if_neg hsplit, if_neg hsplit]
        by_cases hshort : values.length < g.after
        · rw [if_pos hshort, if_pos hshort]
        · rw [if_neg hshort, if_neg hshort, slice?_group (Nat.not_lt.mp hshort),
            Option.bind_eq_bind, Option.bind_some]

theorem encodeLeading?_eq (hafter : ∀ g, ix.spatial = some g → g.after < 2 ^ 64)
    (values : List Value) : ix.encodeLeading? values = some (ix.encodeLeading values) := by
  unfold encodeLeading? encodeLeading
  split
  · rfl
  · cases checkTypes ix.columns values with
    | error e => rfl
    | ok _ => exact encodeChecked?_eq hafter values

theorem decodeRow?_eq (hcount : ix.physicalCount? = some ix.physicalCount)
    (hdirections : ix.physicalDirections? = some ix.physicalDirections) (key : Bytes) :
    ix.decodeRow? key = some (ix.decodeRow key) := by
  rw [decodeRow?, decodeRow, hcount, hdirections]
  simp only [Option.bind_eq_bind, Option.bind_some]
  rw [Key.decodeFrom?_eq (Nat.zero_le _), List.drop_zero, Option.bind_some]
  cases hread : Key.decodeAll (ix.physicalDirections.map (!·)) key with
  | error fault => rfl
  | ok found =>
      obtain ⟨stored, rest⟩ := found
      have hlength : rest.length ≤ key.length := (Key.isSuffix_of_decodeAll hread).length_le
      simp only [Except.map, Except.mapError, bind, Except.bind]
      cases rest with
      | nil =>
          rw [List.length_nil, Nat.sub_zero, if_neg (not_not.mpr rfl), List.isEmpty_nil,
            if_pos rfl]
          cases ix.spatial <;> rfl
      | cons byte rest =>
          rw [List.length_cons] at hlength
          have htrailing : key.length - (key.length - (byte :: rest).length) =
              (byte :: rest).length := by
            rw [List.length_cons]
            omega
          rw [if_pos (by rw [List.length_cons]; omega), difference?_eq_some (Nat.sub_le _ _),
            htrailing, List.isEmpty_cons]
          rfl

/-- No operation of the definition leaves its bounds, whatever values or bytes it is given. -/
structure InBounds (ix : Index) : Prop where
  keyColumns : ix.keyColumns? = some ix.keyColumns
  hierarchicalColumns : ix.hierarchicalColumns? = some ix.hierarchicalColumns
  physicalCount : ix.physicalCount? = some ix.physicalCount
  physicalDirections : ix.physicalDirections? = some ix.physicalDirections
  encodeLeading : ∀ values, ix.encodeLeading? values = some (ix.encodeLeading values)
  encodeRow : ∀ row, ix.encodeRow? row = some (ix.encodeRow row)
  decodeRow : ∀ key, ix.decodeRow? key = some (ix.decodeRow key)

/-- The numbers of the definition lie within its list of columns. -/
structure Within (ix : Index) : Prop where
  declared : ix.declared ≤ ix.columns.length
  group : ∀ g, ix.spatial = some g → g.after ≤ ix.columns.length

theorem physicalCount?_eq (h : ix.Within) : ix.physicalCount? = some ix.physicalCount := by
  unfold physicalCount? physicalCount
  cases hg : ix.spatial with
  | none => rfl
  | some g =>
      have hafter := h.group g hg
      have hdimensions : g.dimensions ≤ g.after := Nat.le_add_left _ _
      dsimp only
      rw [difference?_eq_some (hdimensions.trans hafter), Option.map_some]

theorem physicalDirections?_eq (h : ix.Within) (hcount : ix.columns.length < 2 ^ 64) :
    ix.physicalDirections? = some ix.physicalDirections := by
  unfold physicalDirections? physicalDirections
  cases hg : ix.spatial with
  | none => rfl
  | some g =>
      have hafter := h.group g hg
      have hfirst : g.first ≤ g.after := Nat.le_add_right _ _
      dsimp only
      rw [slice?_from_start (hfirst.trans hafter), word?_eq_some (by omega)]
      simp only [Option.bind_eq_bind, Option.bind_some]
      rw [slice?_to_end hafter, Option.bind_some]

/-- It is enough for the numbers of a definition to lie within its list of columns, and no less
will do. -/
theorem inBounds_iff (hcount : ix.columns.length < 2 ^ 64) : ix.InBounds ↔ ix.Within := by
  constructor
  · intro h
    refine ⟨(le_of_slice? h.keyColumns).2, fun g hg => ?_⟩
    have hdirections := h.physicalDirections
    unfold physicalDirections? at hdirections
    rw [hg] at hdirections
    obtain ⟨before, -, hrest⟩ := Option.bind_eq_some_iff.mp hdirections
    obtain ⟨after, hafter, hrest⟩ := Option.bind_eq_some_iff.mp hrest
    obtain ⟨behind, hbehind, -⟩ := Option.bind_eq_some_iff.mp hrest
    unfold word? at hafter
    split at hafter
    · obtain rfl := Option.some.inj hafter
      exact (le_of_slice? hbehind).1
    · cases hafter
  · intro h
    have hafter (g : CoordinateGroup) (hg : ix.spatial = some g) : g.after < 2 ^ 64 :=
      Nat.lt_of_le_of_lt (h.group g hg) hcount
    have hdirections := physicalDirections?_eq h hcount
    have hleading := encodeLeading?_eq hafter
    refine ⟨slice?_from_start h.declared, slice?_to_end h.declared, physicalCount?_eq h,
      hdirections, hleading, fun row => ?_, decodeRow?_eq (physicalCount?_eq h) hdirections⟩
    unfold encodeRow? encodeRow
    split
    · rfl
    · exact hleading row

end Index
end OrderedQuery
