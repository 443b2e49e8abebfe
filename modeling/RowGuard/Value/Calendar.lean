import RowGuard.Value.Decimal.Text

/-!
# Dates and times

Dates, times of day and both together, ordered by time and written with a fixed
number of digits.  Fractions of a second are written with three, six or nine
digits, the fewest that suffice, and not at all where there are none.
-/

namespace RowGuard

structure Date where
  year : Int
  month : Nat
  day : Nat
deriving DecidableEq, Inhabited

structure Time where
  hour : Nat
  minute : Nat
  second : Nat
  nanosecond : Nat
deriving DecidableEq, Inhabited

structure Timestamp where
  date : Date
  time : Time
deriving DecidableEq, Inhabited

/-- The text of a number with zeros on the left up to a width. -/
def padded (width n : Nat) : String :=
  let digits := (toString n).toList
  String.ofList (List.replicate (width - digits.length) '0' ++ digits)

/-- The numbers that a text writes with single marks between them. -/
def numbersBetween (mark : Char) (cs : List Char) : Option (List Nat) :=
  (String.ofList cs).splitOn (String.singleton mark) |>.mapM fun part =>
    if part.isEmpty then none else naturalOfDigits? part.toList

namespace Date

def compare (a b : Date) : Ordering :=
  (Ord.compare a.year b.year).then
    ((Ord.compare a.month b.month).then (Ord.compare a.day b.day))

/-- A year outside of four digits is written with its sign. -/
def yearText (year : Int) : String :=
  if 0 ≤ year ∧ year ≤ 9999 then padded 4 year.natAbs
  else (if year < 0 then "-" else "+") ++ padded 4 year.natAbs

def text (d : Date) : String :=
  s!"{yearText d.year}-{padded 2 d.month}-{padded 2 d.day}"

def ofText? (s : String) : Option Date := do
  let (negative, rest) := match s.toList with
    | '-' :: rest => (true, rest)
    | '+' :: rest => (false, rest)
    | rest => (false, rest)
  match ← numbersBetween '-' rest with
  | [year, month, day] =>
      if 1 ≤ month ∧ month ≤ 12 ∧ 1 ≤ day ∧ day ≤ 31 then
        return ⟨if negative then -(year : Int) else year, month, day⟩
      else none
  | _ => none

end Date

namespace Time

def midnight : Time := ⟨0, 0, 0, 0⟩

def compare (a b : Time) : Ordering :=
  (Ord.compare a.hour b.hour).then
    ((Ord.compare a.minute b.minute).then
      ((Ord.compare a.second b.second).then (Ord.compare a.nanosecond b.nanosecond)))

def fractionText (nanosecond : Nat) : String :=
  if nanosecond = 0 then ""
  else if nanosecond % 1000000 = 0 then "." ++ padded 3 (nanosecond / 1000000)
  else if nanosecond % 1000 = 0 then "." ++ padded 6 (nanosecond / 1000)
  else "." ++ padded 9 nanosecond

def text (t : Time) : String :=
  s!"{padded 2 t.hour}:{padded 2 t.minute}:{padded 2 t.second}"
    ++ fractionText t.nanosecond

/-- The nanoseconds that the digits behind a point denote. -/
def nanoseconds? (digits : List Char) : Option Nat := do
  let kept := digits.take 9
  let n ← naturalOfDigits? kept
  return n * powerOfTen (9 - kept.length)

def ofText? (s : String) : Option Time := do
  let cs := s.toList
  let clock ← numbersBetween ':' (cs.takeWhile (· ≠ '.'))
  let fraction ← nanoseconds? ((cs.dropWhile (· ≠ '.')).drop 1)
  match clock with
  | [hour, minute, second] =>
      if hour ≤ 23 ∧ minute ≤ 59 ∧ second ≤ 60 then
        return ⟨hour, minute, second, fraction⟩
      else none
  | _ => none

end Time

namespace Timestamp

def compare (a b : Timestamp) : Ordering :=
  (Date.compare a.date b.date).then (Time.compare a.time b.time)

def text (t : Timestamp) : String := s!"{t.date.text} {t.time.text}"

/-- The first moment of a day. -/
def startOf (d : Date) : Timestamp := ⟨d, Time.midnight⟩

def ofText? (s : String) : Option Timestamp := do
  let cs := s.toList
  let date ← Date.ofText? (String.ofList (cs.takeWhile (· ≠ ' ')))
  let time ← Time.ofText? (String.ofList ((cs.dropWhile (· ≠ ' ')).drop 1))
  return ⟨date, time⟩

end Timestamp

end RowGuard
