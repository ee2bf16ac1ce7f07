import Mathlib.Data.List.Forall2
import OrderedQuery.Row.Basic

/-!
# Rows of a type

A type describes values if there is one for each of its fields and it conforms to the type of the
field.  These are the values that pass the check of the type, and a row is made of.
-/

namespace OrderedQuery
namespace RowType

variable {t : RowType} {values : List Value}

/-- There is one value for each field, and it conforms to the type of the field. -/
def Describes (t : RowType) (values : List Value) : Prop :=
  List.Forall₂ (fun v type => Value.conforms v type = true) values t.fields

theorem checkFields_eq_ok {types : List ValueType} {i : Nat}
    (h : checkFields i types values = .ok ()) (hlength : values.length = types.length) :
    List.Forall₂ (fun v type => Value.conforms v type = true) values types := by
  induction types generalizing values i with
  | nil =>
      obtain rfl := List.length_eq_zero_iff.mp hlength
      exact .nil
  | cons type types ih =>
      cases values with
      | nil => cases hlength
      | cons v values =>
          rw [checkFields] at h
          split at h
          · rename_i hv
            exact .cons hv (ih h (Nat.succ.inj hlength))
          · cases h

theorem checkFields_of_forall₂ {types : List ValueType}
    (h : List.Forall₂ (fun v type => Value.conforms v type = true) values types) (i : Nat) :
    checkFields i types values = .ok () := by
  induction h generalizing i with
  | nil => rfl
  | cons hv _ ih =>
      rw [checkFields, if_pos hv]
      exact ih (i + 1)

theorem check_eq_ok_iff : t.check values = .ok () ↔ t.Describes values := by
  rw [check]
  constructor
  · intro h
    split at h
    · cases h
    · rename_i hlength
      exact checkFields_eq_ok h (not_not.mp hlength)
  · intro h
    have hlength : values.length = t.arity := List.Forall₂.length_eq h
    rw [if_neg (not_not.mpr hlength)]
    exact checkFields_of_forall₂ h 0

end RowType

namespace Row

variable {type : RowType} {values : List Value}

theorem ofValues_eq_ok (h : type.check values = .ok ()) :
    ∃ row, ofValues type values = .ok row ∧ row.values = values := by
  refine ⟨⟨type, values, h⟩, ?_, rfl⟩
  rw [ofValues]
  split
  · rfl
  · rename_i e he
    rw [h] at he
    cases he

theorem type_of_ofValues {row : Row} (h : ofValues type values = .ok row) : row.type = type := by
  rw [ofValues] at h
  split at h
  · rw [← Except.ok.inj h]
  · cases h

theorem describes (row : Row) : row.type.Describes row.values :=
  RowType.check_eq_ok_iff.mp row.fits

/-- A row has as many values as its type has fields. -/
theorem length_values (row : Row) : row.values.length = row.type.fields.length :=
  row.describes.length_eq

/-- A row has the fields of a type. -/
abbrev Fits (t : RowType) (row : Row) : Prop := row.type.fields = t.fields

theorem Fits.describes {t : RowType} {row : Row} (h : row.Fits t) : t.Describes row.values := by
  have hdescribes := row.describes
  rwa [RowType.Describes, h] at hdescribes

end Row

/-- Values make a row of a type if the type describes them. -/
theorem RowType.Describes.ofValues {t : RowType} {values : List Value} (h : t.Describes values) :
    ∃ row, Row.ofValues t values = .ok row ∧ row.type = t := by
  obtain ⟨row, hrow, -⟩ := Row.ofValues_eq_ok (check_eq_ok_iff.mpr h)
  exact ⟨row, hrow, Row.type_of_ofValues hrow⟩

end OrderedQuery
