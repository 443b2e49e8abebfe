/-!
# Wildcard patterns

A pattern is a sequence of elements: a percent sign stands for any characters,
an underscore for any one, and everything else for itself.  The escape
character makes the wildcard behind it an ordinary character; anywhere else it
is one itself.

Whether a text matches is found for all its suffixes at once, from the last
element of the pattern back to the first, so the work is bounded by the product
of both lengths whatever the pattern is.
-/

namespace RowGuard.Text.Wildcard

inductive Element where
  /-- One certain character. -/
  | literal (c : Char)
  /-- One character. -/
  | one
  /-- Any number of characters. -/
  | many
deriving DecidableEq

def isWildcard (c : Char) : Bool := c = '%' || c = '_'

/-- The element that an unescaped character stands for. -/
def Element.ofChar (c : Char) : Element :=
  if c = '%' then .many else if c = '_' then .one else .literal c

/-- The elements of a pattern. -/
def elements (escape : Char) : List Char → List Element
  | [] => []
  | [c] => [if c = escape then .literal c else .ofChar c]
  | c :: d :: rest =>
      if c = escape then
        if isWildcard d then .literal d :: elements escape rest
        else .literal c :: elements escape (d :: rest)
      else .ofChar c :: elements escape (d :: rest)

/-- For each suffix of a text, the longest first, whether it matches an element
and then what `later` tells of its own suffixes. -/
def extend (e : Element) : List Char → List Bool → List Bool
  | c :: cs, here :: later =>
      let shorter := extend e cs later
      let matched := match e with
        | .literal d => c == d && later.headD false
        | .one => later.headD false
        | .many => here || shorter.headD false
      matched :: shorter
  | _, later => [e == .many && later.headD false]

/-- Only the empty suffix matches no elements. -/
def emptySuffix : List Char → List Bool
  | [] => [true]
  | _ :: cs => false :: emptySuffix cs

/-- For each suffix of a text, whether it matches the elements. -/
def suffixes : List Element → List Char → List Bool
  | [], cs => emptySuffix cs
  | e :: es, cs => extend e cs (suffixes es cs)

def accepts (es : List Element) (cs : List Char) : Bool := (suffixes es cs).headD false

/-! ## What accepting means -/

theorem suffixes_cons (es : List Element) (c : Char) (cs : List Char) :
    suffixes es (c :: cs) = accepts es (c :: cs) :: suffixes es cs := by
  induction es with
  | nil => rfl
  | cons e es ih =>
      show extend e (c :: cs) (suffixes es (c :: cs)) =
        (extend e (c :: cs) (suffixes es (c :: cs))).headD false :: suffixes (e :: es) cs
      rw [ih]
      rfl

theorem accepts_cons_cons (e : Element) (es : List Element) (c : Char) (cs : List Char) :
    accepts (e :: es) (c :: cs) =
      match e with
      | .literal d => c == d && accepts es cs
      | .one => accepts es cs
      | .many => accepts es (c :: cs) || accepts (.many :: es) cs := by
  show (extend e (c :: cs) (suffixes es (c :: cs))).headD false = _
  rw [suffixes_cons]
  cases e <;> rfl

theorem accepts_nil (cs : List Char) : accepts [] cs = cs.isEmpty := by
  cases cs <;> rfl

theorem accepts_cons_nil (e : Element) (es : List Element) :
    accepts (e :: es) [] = (e == .many && accepts es []) := rfl

/-- Whether a text matches a pattern. -/
def matchesPattern (escape : Char) (pattern text : String) : Bool :=
  accepts (elements escape pattern.toList) text.toList

end RowGuard.Text.Wildcard
