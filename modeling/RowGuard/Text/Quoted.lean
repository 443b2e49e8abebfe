/-!
# Quoted strings

A string literal stands between single quotes, and each quote inside it is
written twice.  `encode` writes the literal of a text and `decode` reads the
text of a literal; `decode` accepts any characters, since a literal reaches it
from phrases that were never read from a text as well.
-/

namespace RowGuard.Text.Quoted

/-- Writes each quote twice. -/
def double : List Char → List Char
  | [] => []
  | c :: rest => if c = '\'' then '\'' :: '\'' :: double rest else c :: double rest

/-- Reads each pair of quotes as one, from the left. -/
def halve : List Char → List Char
  | [] => []
  | [c] => [c]
  | c :: d :: rest =>
      if c = '\'' ∧ d = '\'' then '\'' :: halve rest else c :: halve (d :: rest)

/-- The characters between the outer quotes, or all of them where the outer
quotes are not both there. -/
def inner (cs : List Char) : List Char :=
  match cs with
  | c :: rest =>
      if c = '\'' ∧ rest.getLast? = some '\'' then rest.dropLast else cs
  | [] => []

def encodeChars (cs : List Char) : List Char :=
  '\'' :: (double cs ++ ['\''])

def decodeChars (cs : List Char) : List Char :=
  halve (inner cs)

/-- The literal of a text. -/
def encode (s : String) : String := String.ofList (encodeChars s.toList)

/-- The text of a literal. -/
def decode (s : String) : String := String.ofList (decodeChars s.toList)

theorem inner_encodeChars (cs : List Char) : inner (encodeChars cs) = double cs := by
  simp [inner, encodeChars]

/-- Reading a literal gives back the text it was written for. -/
theorem halve_double (cs : List Char) : halve (double cs) = cs := by
  induction cs with
  | nil => rfl
  | cons c rest ih =>
      by_cases hc : c = '\''
      · simp [double, hc, halve, ih]
      · cases hd : double rest with
        | nil =>
            rw [hd] at ih
            simp [double, hc, halve, ← ih]
        | cons d more =>
            rw [hd] at ih
            simp [double, hc, hd, halve, ih]

end RowGuard.Text.Quoted
