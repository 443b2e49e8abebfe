import RowGuard.Value.Decimal.Quotient
import RowGuard.Value.Decimal.Text

/-!
# Numbers in range

A number of a document that has to be kept becomes a binary number with 53
digits, so it must not be greater than the greatest of these.  Its digits are
taken into a word of 64 bits as long as they fit, first those before the point
and then those behind it; the power of ten that is left is a second number, and
the product of the two must be in range.
-/

namespace RowGuard.Document.NumberRange

/-- The nearest number with at most 53 binary digits in front of its zeros, a half
going to the even neighbour. -/
def nearest (n : Nat) : Nat :=
  let unit := Nat.pow 2 (Nat.log2 n - 52)
  divideHalfEven n unit * unit

/-- The least number that is too great, half a unit above the greatest one with 53
digits among 1024. -/
def limit : Nat := Nat.pow 2 1024 - Nat.pow 2 970

/-- The greatest power of ten below the limit. -/
def greatestPower : Int := 308

/-- The least number that does not fit into a word. -/
def wordLimit : Nat := Nat.pow 2 64

/-- Takes digits behind those of `n` while the number fits into a word, and gives
the digits that are left. -/
def absorb (n : Nat) : List Char → Nat × List Char
  | [] => (n, [])
  | c :: cs =>
      match (digitValue? c).map (10 * n + ·) with
      | some m => if m < wordLimit then absorb m cs else (n, c :: cs)
      | none => (n, c :: cs)

/-- The power of ten behind the exponent mark; without a mark it is zero. -/
def power (cs : List Char) : Int :=
  (integerOfChars? (cs.drop 1)).getD 0

/-- The word and the power of ten whose product an unsigned number is. -/
def parts (cs : List Char) : Nat × Int :=
  let (lead, trail) := Decimal.splitPoint (cs.takeWhile fun c => !Decimal.isExponentMark c)
  let (n, dropped) := absorb 0 lead
  let (n, unread) := absorb n trail
  (n, power (cs.dropWhile fun c => !Decimal.isExponentMark c)
    + dropped.length - (trail.length - unread.length))

/-- Whether the product of a word and a power of ten is in range. -/
def isBelow (n : Nat) (power : Int) : Bool :=
  n == 0 || power < 0
    || (power ≤ greatestPower && nearest n * nearest (powerOfTen power.toNat) < limit)

/-- Whether the number that a text denotes is in range. -/
def contains (text : String) : Bool :=
  let unsigned := match text.toList with
    | '-' :: cs => cs
    | cs => cs
  let (n, power) := parts unsigned
  isBelow n power

end RowGuard.Document.NumberRange
