import OrderedQuery.Binary64.Decimal
import OrderedQuery.Text.Quoted
import OrderedQuery.Value.Basic

/-!
# The text of a value

Messages show values as literals: `NULL`, `true`, `42`, `1.5`, `'text'` and `x'00ff'`.
A text stands between its quotes as it is.  Where the kind of a value matters more than
the value, a message shows it with its kind in front.
-/

namespace OrderedQuery
namespace Value

/-- The text that messages show for a value. -/
def display : Value → String
  | null => "NULL"
  | bool b => if b then "true" else "false"
  | int i => toString i.toInt
  | float x => x.text .plain
  | string s => "'" ++ s ++ "'"
  | bytes b => "x'" ++ Bytes.hex b ++ "'"

/-- A value with its kind in front, such as `Int(42)`. -/
def displayTagged : Value → String
  | null => "Null"
  | bool b => "Bool(" ++ (if b then "true" else "false") ++ ")"
  | int i => "Int(" ++ toString i.toInt ++ ")"
  | float x => "Float(" ++ x.text .distinct ++ ")"
  | string s => "String(" ++ quoted s ++ ")"
  | bytes b =>
      "Bytes([" ++ String.intercalate ", " (b.map fun byte => toString byte.toNat) ++ "])"

end Value
end OrderedQuery
