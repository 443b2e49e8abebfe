import RowGuard.Text.Casing.Classes
import RowGuard.Text.Casing.Pairs

/-!
# Texts in upper and lower letters

Each character is replaced by its upper or lower form, which may be several
characters.  Only one letter looks at its neighbours: the Greek sigma has a
second lower form for the end of a word.
-/

namespace RowGuard.Text.Casing

def upperForm (c : Char) : List Char :=
  match longUpper.lookup c.toNat with
  | some form => form.map Char.ofNat
  | none => [partner upperRuns c]

/-- The capital i with a dot keeps its dot as a character of its own. -/
def lowerForm (c : Char) : List Char :=
  if c = 'İ' then ['i', Char.ofNat 0x307] else [partner lowerRuns c]

/-- Whether the first character that is not passed over has a case. -/
def meetsCased (cs : List Char) : Bool :=
  match cs.dropWhile isPassed with
  | c :: _ => isCased c
  | [] => false

/-- Whether a letter ends a word, `before` being the characters in front of it
from the nearest on. -/
def endsWord (before after : List Char) : Bool :=
  meetsCased before && !meetsCased after

/-- The lower form of a character between its neighbours. -/
def lowerBetween (before : List Char) (c : Char) (after : List Char) : List Char :=
  if c = 'Σ' then [if endsWord before after then 'ς' else 'σ'] else lowerForm c

def lowerFrom (before : List Char) : List Char → List Char
  | [] => []
  | c :: after => lowerBetween before c after ++ lowerFrom (c :: before) after

def upper (s : String) : String := String.ofList (s.toList.flatMap upperForm)

def lower (s : String) : String := String.ofList (lowerFrom [] s.toList)

end RowGuard.Text.Casing
