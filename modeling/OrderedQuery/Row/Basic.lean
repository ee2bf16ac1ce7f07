import OrderedQuery.Query.Error

/-!
# Rows

A row is a list of values together with the row type they fit: one value per field, each
null or of the declared type.  That the values fit is part of the row.
-/

namespace OrderedQuery

/-- What a row type describes. -/
inductive RowOrigin where
  | table (name : String)
  | index (table name : String)
  deriving DecidableEq, Repr

/-- The types of the fields of a row. -/
structure RowType where
  fields : List ValueType
  origin : Option RowOrigin
  deriving DecidableEq, Repr

namespace RowType

/-- A row type that describes no table or index. -/
def ofFields (fields : List ValueType) : RowType := ⟨fields, none⟩

/-- The number of fields. -/
def arity (t : RowType) : Nat := t.fields.length

/-- The type of a field. -/
def field? (t : RowType) (i : Nat) : Option ValueType := t.fields[i]?

/-- Rows of one type can stand for rows of the other: the fields have the same types. -/
def compatible (a b : RowType) : Bool :=
  decide (a.fields = b.fields)

/-- Looks for the first value that does not fit, starting at field `i`. -/
def checkFields (i : Nat) : List ValueType → List Value → Except QueryError Unit
  | type :: types, v :: values =>
      if v.conforms type then checkFields (i + 1) types values
      else .error (.value (.fieldOfOtherType i type v))
  | _, _ => .ok ()

/-- Checks that values fit. -/
def check (t : RowType) (values : List Value) : Except QueryError Unit :=
  if values.length ≠ t.arity then .error (.value (.rowLength t.arity values.length))
  else checkFields 0 t.fields values

end RowType

/-- Values that fit a row type. -/
structure Row where
  type : RowType
  values : List Value
  fits : type.check values = .ok ()

namespace Row

/-- The row of given values, if they fit. -/
def ofValues (type : RowType) (values : List Value) : Except QueryError Row :=
  match h : type.check values with
  | .ok () => .ok ⟨type, values, h⟩
  | .error e => .error e

/-- The number of values. -/
def arity (r : Row) : Nat := r.values.length

/-- The value of a field. -/
def value? (r : Row) (i : Nat) : Option Value := r.values[i]?

/-- Equality of values, fields of the same types being required. -/
def equal (a b : Row) : Bool :=
  a.type.compatible b.type &&
    decide (a.values.length = b.values.length) &&
    (a.values.zip b.values).all fun (x, y) => x.equal y

end Row
end OrderedQuery
