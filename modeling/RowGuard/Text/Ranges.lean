/-!
# Sets of characters

A set of characters is written down as the ranges of their code points, both
ends included and in ascending order.
-/

namespace RowGuard.Text

abbrev Ranges := List (Nat × Nat)

namespace Ranges

def covers (ranges : Ranges) (c : Char) : Bool :=
  ranges.any fun r => r.1 ≤ c.toNat && c.toNat ≤ r.2

theorem covers_iff (ranges : Ranges) (c : Char) :
    ranges.covers c = true ↔ ∃ r ∈ ranges, r.1 ≤ c.toNat ∧ c.toNat ≤ r.2 := by
  simp [covers]

end Ranges

end RowGuard.Text
