import RowGuard.Value.Decimal.Basic

/-!
# Decimals as texts

Reading keeps the scale that was written.  Writing shows all digits and is
plain as long as few zeros have to be added: up to five behind the point before
the first digit, up to fifteen in front of it.  Smaller numbers are written
with one digit before the point and an exponent, greater ones as their digits
and an exponent.
-/

namespace RowGuard

/-- The value of a digit. -/
def digitValue? (c : Char) : Option Nat :=
  if '0' ≤ c ∧ c ≤ '9' then some (c.toNat - '0'.toNat) else none

/-- The number that some digits denote. -/
def naturalOfDigits? (cs : List Char) : Option Nat :=
  cs.foldlM (fun n c => (digitValue? c).map (10 * n + ·)) 0

/-- A number that is written as at least one digit behind an optional sign. -/
def integerOfChars? (cs : List Char) : Option Int :=
  let magnitude? (digits : List Char) : Option Nat :=
    if digits.isEmpty then none else naturalOfDigits? digits
  match cs with
  | '-' :: rest => (magnitude? rest).map fun n => -(n : Int)
  | '+' :: rest => (magnitude? rest).map fun n => (n : Int)
  | rest => (magnitude? rest).map fun n => (n : Int)

namespace Decimal

/-- The digits of a literal, which may hold underscores behind its first digit. -/
def groupedDigits? (cs : List Char) : Option Nat :=
  match cs with
  | [] => none
  | '_' :: _ => none
  | _ => naturalOfDigits? (cs.filter (· ≠ '_'))

def signedDigits? (cs : List Char) : Option Int :=
  match cs with
  | '-' :: rest => (groupedDigits? rest).map fun n => -(n : Int)
  | '+' :: rest => (groupedDigits? rest).map fun n => (n : Int)
  | rest => (groupedDigits? rest).map fun n => (n : Int)

def isExponentMark (c : Char) : Bool := c = 'e' || c = 'E'

/-- The least number above the integers of 128 bits, which exponents are. -/
def exponentLimit : Int := 170141183460469231731687303715884105728

/-- The exponent behind its mark; nothing at all stands for zero. -/
def exponent? (cs : List Char) : Option Int :=
  match cs with
  | [] => some 0
  | _ :: rest => do
      let e ← integerOfChars? rest
      if -exponentLimit ≤ e ∧ e < exponentLimit then return e else none

/-- The digits before and behind the first point. -/
def splitPoint (cs : List Char) : List Char × List Char :=
  (cs.takeWhile (· ≠ '.'), (cs.dropWhile (· ≠ '.')).drop 1)

def ofChars? (cs : List Char) : Option Decimal := do
  let exponent ← exponent? (cs.dropWhile fun c => !isExponentMark c)
  let (lead, trail) := splitPoint (cs.takeWhile fun c => !isExponentMark c)
  let digits ← signedDigits? (lead ++ trail)
  let scale := ((trail.filter (· ≠ '_')).length : Int) - exponent
  if fitsInteger scale then return ⟨digits, scale⟩ else none

/-- The decimal that a text denotes: an optional sign, digits with at most one
point, and an optional exponent. -/
def ofText? (s : String) : Option Decimal := ofChars? s.toList

def zeros (n : Nat) : List Char := List.replicate n '0'

/-- One digit, the others behind a point, and the exponent. -/
def scientific (digits : List Char) (scale : Int) : List Char :=
  let exponent := (digits.length : Int) - 1 - scale
  match digits with
  | first :: rest@(_ :: _) => first :: '.' :: rest ++ 'E' :: (toString exponent).toList
  | _ => digits ++ 'E' :: (toString exponent).toList

/-- The digits with their point and the zeros it needs. -/
def plain (digits : List Char) (scale : Int) : List Char :=
  let places := scale.toNat
  if scale ≤ 0 then digits ++ zeros (-scale).toNat
  else if places < digits.length then
    digits.take (digits.length - places) ++ '.' :: digits.drop (digits.length - places)
  else '0' :: '.' :: zeros (places - digits.length) ++ digits

/-- The text of the digits of a number without its sign. -/
def magnitudeText (digits : List Char) (scale : Int) : List Char :=
  if 5 < scale - digits.length then scientific digits scale
  else if 15 < -scale then digits ++ ("e+" ++ toString (-scale)).toList
  else plain digits scale

/-- The text of a decimal; zero is `0` at every scale. -/
def text (x : Decimal) : String :=
  if x.digits = 0 then "0"
  else
    let magnitude := magnitudeText (toString x.digits.natAbs).toList x.scale
    String.ofList (if x.digits < 0 then '-' :: magnitude else magnitude)

end Decimal

end RowGuard
