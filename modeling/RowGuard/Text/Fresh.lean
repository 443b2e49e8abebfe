/-!
# Fresh names

A name that is already taken is varied until it is not: by an index that counts
up, or by a character that is added again and again.  The candidates differ
from one another, so one more candidate than there are taken names is always
enough.
-/

namespace RowGuard.Text.Fresh

/-- The first of `budget + 1` candidates that is not taken, the last of them if
all others are. -/
def firstFree (candidate : Nat → String) (taken : List String) : Nat → Nat → String
  | 0, i => candidate i
  | budget + 1, i =>
      if taken.contains (candidate i) then firstFree candidate taken budget (i + 1)
      else candidate i

/-- The first candidate that is not taken. -/
def first (candidate : Nat → String) (taken : List String) : String :=
  firstFree candidate taken taken.length 0

/-- The base with the least index that is not taken. -/
def indexed (base : String) (taken : List String) : String :=
  first (fun i => base ++ toString i) taken

/-- The base itself or, if it is taken, the base with the least positive index
that is not. -/
def suffixed (base : String) (taken : List String) : String :=
  first (fun i => if i = 0 then base else base ++ toString i) taken

/-- The base with as few underscores behind it as it takes. -/
def underscored (base : String) (taken : List String) : String :=
  first (fun i => base ++ String.ofList (List.replicate i '_')) taken

end RowGuard.Text.Fresh
