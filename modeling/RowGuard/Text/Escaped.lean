import RowGuard.Text.Printable

/-!
# Escaped texts

A report shows a text between double quotes so that every character of it can
be told: quotes and backslashes stand behind a backslash, the usual controls
have a letter each, and whatever else is not printable is shown by its code
point.
-/

namespace RowGuard.Text.Escaped

/-- The code point of a character between braces. -/
def codePoint (c : Char) : List Char :=
  '\\' :: 'u' :: '\x7b' :: Nat.toDigits 16 c.toNat ++ ['\x7d']

def escape (c : Char) : List Char :=
  if c = '\x00' then ['\\', '0']
  else if c = '\t' then ['\\', 't']
  else if c = '\r' then ['\\', 'r']
  else if c = '\n' then ['\\', 'n']
  else if c = '\\' ∨ c = '"' then ['\\', c]
  else if isPrintable c then [c]
  else codePoint c

def encode (s : String) : String :=
  String.ofList ('"' :: s.toList.flatMap escape ++ ['"'])

end RowGuard.Text.Escaped
