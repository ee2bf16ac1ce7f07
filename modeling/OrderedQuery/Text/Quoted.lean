import OrderedQuery.Bytes
import OrderedQuery.Text.Unprintable

/-!
# Quoted text

A quoted text stands between double quotes.  A quote, a backslash and the usual control
characters are written with a backslash, and every other character that would not show is
written by its code point, as in `\u{301}`.
-/

namespace OrderedQuery

/-- A natural number in lower-case hexadecimal, without leading zeros. -/
def hexDigits (n : Nat) : String :=
  String.ofList (Nat.toDigits 16 n)

/-- How a character is written inside double quotes. -/
def quotedChar (c : Char) : List Char :=
  if c = '\x00' then ['\\', '0']
  else if c = '\t' then ['\\', 't']
  else if c = '\r' then ['\\', 'r']
  else if c = '\n' then ['\\', 'n']
  else if c = '\\' ∨ c = '"' then ['\\', c]
  else if unprintable c then
    ['\\', 'u', '\x7b'] ++ (hexDigits c.toNat).toList ++ ['\x7d']
  else [c]

/-- A text between double quotes. -/
def quoted (s : String) : String :=
  String.ofList ('"' :: s.toList.flatMap quotedChar ++ ['"'])

end OrderedQuery
