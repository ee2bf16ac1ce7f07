import OrderedQuery.Binary64.Arithmetic
import OrderedQuery.Text.Utf8

/-!
# Nullable scalar values

A value is what a field of a row, an expression and a key column hold.  Every type admits
`null`.

Values have two orders.  `Value.compare` is the one of expressions: it is partial, orders
integers and floats by number, and never compares `null`.  `Value.totalCompare` is the one
of keys: values of different types are ordered by type, `null` first.
-/

namespace OrderedQuery

/-- The declared type of a field or key column. -/
inductive ValueType where
  | bool
  | int
  | float
  | string
  | bytes
  deriving DecidableEq, Repr

namespace ValueType

/-- The name of a type. -/
def name : ValueType → String
  | bool => "Bool"
  | int => "Int"
  | float => "Float"
  | string => "String"
  | bytes => "Bytes"

/-- Integers and floats are numbers. -/
def isNumeric : ValueType → Bool
  | int | float => true
  | _ => false

/-- Values of the two types can be ordered against each other. -/
def comparable (a b : ValueType) : Bool :=
  decide (a = b) || (a.isNumeric && b.isNumeric)

end ValueType

/-- A nullable scalar. -/
inductive Value where
  | null
  | bool (b : Bool)
  | int (i : Int64)
  | float (x : Binary64)
  | string (s : String)
  | bytes (b : Bytes)
  deriving DecidableEq, Repr, Inhabited

namespace Value

open scoped CoreInstances

/-- A value is null. -/
def isNull : Value → Bool
  | null => true
  | _ => false

/-- The type of a value that is not null. -/
def type? : Value → Option ValueType
  | null => none
  | bool _ => some .bool
  | int _ => some .int
  | float _ => some .float
  | string _ => some .string
  | bytes _ => some .bytes

/-- A value may stand where type `ty` is declared. -/
def conforms (v : Value) (ty : ValueType) : Bool :=
  v.type?.all (· == ty)

/-- The name of a value's type; `null` has a name of its own. -/
def typeName (v : Value) : String :=
  (v.type?.map ValueType.name).getD "Null"

def asBool? : Value → Option Bool
  | bool b => some b
  | _ => none

def asInt? : Value → Option Int64
  | int i => some i
  | _ => none

/-- The value as a float; an integer is rounded to the nearest one. -/
def asFloat? : Value → Option Binary64
  | float x => some x
  | int i => some (.ofInt i.toInt)
  | _ => none

def asString? : Value → Option String
  | string s => some s
  | _ => none

def asBytes? : Value → Option Bytes
  | bytes b => some b
  | _ => none

/-- The 64-bit integer with a given value, if there is one. -/
def int64? (n : Int) : Option Int64 :=
  if -2 ^ (63 : Nat) ≤ n ∧ n < 2 ^ (63 : Nat) then some (.ofInt n) else none

/-- Orders two values of comparable types; an integer against a float is compared as a
float.  There is no answer for nulls, NaNs and types that are not comparable. -/
def compare : Value → Value → Option Ordering
  | bool a, bool b => some (Ord.compare a b)
  | int a, int b => some (Ord.compare a.toInt b.toInt)
  | string a, string b => some (Ord.compare (utf8 a) (utf8 b))
  | bytes a, bytes b => some (Ord.compare a b)
  | float a, float b => a.compare b
  | int a, float b => (Binary64.ofInt a.toInt).compare b
  | float a, int b => a.compare (.ofInt b.toInt)
  | _, _ => none

/-- Place of a value's type in the total order. -/
def rank : Value → Nat
  | null => 0
  | bool _ => 1
  | int _ => 2
  | float _ => 3
  | string _ => 4
  | bytes _ => 5

/-- Orders any two values, types first. -/
def totalCompare : Value → Value → Ordering
  | bool a, bool b => Ord.compare a b
  | int a, int b => Ord.compare a.toInt b.toInt
  | float a, float b => Ord.compare a.orderKey b.orderKey
  | string a, string b => Ord.compare (utf8 a) (utf8 b)
  | bytes a, bytes b => Ord.compare a b
  | a, b => Ord.compare a.rank b.rank

/-- Equality of values of one type, floats by number: the two zeros are equal, and a NaN
equals nothing. -/
def equal : Value → Value → Bool
  | float a, float b => a.compare b == some .eq
  | a, b => decide (a = b)

end Value
end OrderedQuery
