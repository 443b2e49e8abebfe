import Mathlib.Data.Finset.Card
import RowGuard.Text.Fresh

/-!
# Names that are not taken

A search for a free name goes on for as long as it meets taken ones.  The candidates differ
from one another and the taken names are finitely many, so not all of one more candidate
than there are taken names can be taken: the search ends, and it ends at the first free
candidate.  The budget of `first` is therefore never used up.
-/

namespace RowGuard.Text.Fresh

variable {candidate : Nat → String} {taken : List String} {base : String} {i k : Nat}

/-- The search as it is without a budget: from the `i`-th candidate on it passes those that are
taken, and it stops at the `k`-th. -/
inductive Stops (candidate : Nat → String) (taken : List String) : Nat → Nat → Prop
  | here {i : Nat} : candidate i ∉ taken → Stops candidate taken i i
  | later {i k : Nat} : candidate i ∈ taken → Stops candidate taken (i + 1) k →
      Stops candidate taken i k

namespace Stops

theorem not_mem (h : Stops candidate taken i k) : candidate k ∉ taken := by
  induction h with
  | here hfree => exact hfree
  | later _ _ ih => exact ih

theorem le (h : Stops candidate taken i k) : i ≤ k := by
  induction h with
  | here => exact Nat.le_refl _
  | later _ _ ih => exact Nat.le_of_succ_le ih

/-- All candidates before the one at which the search stops are taken. -/
theorem mem_of_lt (h : Stops candidate taken i k) {j : Nat} (hij : i ≤ j) (hjk : j < k) :
    candidate j ∈ taken := by
  induction h with
  | here => exact absurd hjk (Nat.not_lt.mpr hij)
  | later hmem _ ih =>
      rcases Nat.eq_or_lt_of_le hij with rfl | hlt
      · exact hmem
      · exact ih hlt hjk

/-- With a budget that lasts, the search returns the candidate at which it stops. -/
theorem firstFree_eq (h : Stops candidate taken i k) {budget : Nat} (hbudget : k ≤ i + budget) :
    firstFree candidate taken budget i = candidate k := by
  induction h generalizing budget with
  | here hfree => cases budget <;> simp [firstFree, hfree]
  | later hmem hstops ih =>
      have hle := hstops.le
      cases budget with
      | zero => omega
      | succ budget =>
          rw [firstFree, if_pos (List.contains_iff_mem.mpr hmem), ih (by omega)]

/-- Where a candidate is free the search stops, at the latest there. -/
theorem exists_of_not_mem (hfree : candidate k ∉ taken) (hik : i ≤ k) :
    ∃ j ≤ k, Stops candidate taken i j := by
  induction hik using Nat.decreasingInduction with
  | self => exact ⟨k, Nat.le_refl k, .here hfree⟩
  | of_succ i _ ih =>
      by_cases hi : candidate i ∈ taken
      · obtain ⟨j, hj, hstops⟩ := ih
        exact ⟨j, hj, .later hi hstops⟩
      · exact ⟨i, by omega, .here hi⟩

end Stops

/-- One more candidate than there are taken names cannot all be taken. -/
theorem exists_free (hdiffer : Function.Injective candidate) (taken : List String) :
    ∃ k ≤ taken.toFinset.card, candidate k ∉ taken := by
  by_contra! hall
  have hsubset : (Finset.range (taken.toFinset.card + 1)).image candidate ⊆ taken.toFinset := by
    intro name hname
    obtain ⟨k, hk, rfl⟩ := Finset.mem_image.mp hname
    exact List.mem_toFinset.mpr (hall k (Nat.le_of_lt_succ (Finset.mem_range.mp hk)))
  have hcard := Finset.card_le_card hsubset
  rw [Finset.card_image_of_injective _ hdiffer, Finset.card_range] at hcard
  exact Nat.not_succ_le_self _ hcard

/-- The search stops, after no more steps than there are taken names, and what is returned is
the candidate at which it stops. -/
theorem exists_stops (hdiffer : Function.Injective candidate) (taken : List String) :
    ∃ k ≤ taken.toFinset.card, Stops candidate taken 0 k ∧
      first candidate taken = candidate k := by
  obtain ⟨k, hk, hfree⟩ := exists_free hdiffer taken
  obtain ⟨j, hj, hstops⟩ := Stops.exists_of_not_mem hfree (Nat.zero_le k)
  have hcard : j ≤ taken.toFinset.card := hj.trans hk
  refine ⟨j, hcard, hstops, hstops.firstFree_eq ?_⟩
  rw [Nat.zero_add]
  exact hcard.trans taken.toFinset_card_le

/-- The first free candidate is free. -/
theorem first_not_mem (hdiffer : Function.Injective candidate) : first candidate taken ∉ taken := by
  obtain ⟨k, -, hstops, heq⟩ := exists_stops hdiffer taken
  exact heq ▸ hstops.not_mem

/-! ## The candidates -/

theorem toString_injective : Function.Injective (toString : Nat → String) := by
  intro i j h
  have hdigits := congrArg (fun s : String => Nat.ofDigitChars 10 s.toList 0) h
  simpa [Nat.toString_eq_ofList_toDigits] using hdigits

theorem append_injective (base : String) : Function.Injective (base ++ ·) := by
  intro s t h
  have hlist := congrArg String.toList h
  simp only [String.toList_append] at hlist
  exact String.ext (List.append_cancel_left hlist)

theorem append_toString_ne (base : String) (i : Nat) : base ++ toString i ≠ base := by
  intro h
  have hlist := congrArg String.toList h
  rw [String.toList_append, List.append_right_eq_self] at hlist
  simp at hlist

theorem indexed_injective (base : String) :
    Function.Injective fun i : Nat => base ++ toString i :=
  (append_injective base).comp toString_injective

theorem suffixed_injective (base : String) :
    Function.Injective fun i : Nat => if i = 0 then base else base ++ toString i := by
  intro i j h
  simp only at h
  split at h <;> split at h
  · omega
  · exact absurd h.symm (append_toString_ne base j)
  · exact absurd h (append_toString_ne base i)
  · exact indexed_injective base h

theorem underscored_injective (base : String) :
    Function.Injective fun i => base ++ String.ofList (List.replicate i '_') := by
  intro i j h
  have hlength := congrArg (fun s : String => s.toList.length) (append_injective base h)
  simpa using hlength

/-! ## The searches -/

section Searches

variable (base : String) (taken : List String)

theorem exists_indexed : ∃ i ≤ taken.toFinset.card,
    Stops (fun i => base ++ toString i) taken 0 i ∧ indexed base taken = base ++ toString i :=
  exists_stops (indexed_injective base) taken

theorem exists_suffixed : ∃ i ≤ taken.toFinset.card,
    Stops (fun i => if i = 0 then base else base ++ toString i) taken 0 i ∧
      suffixed base taken = if i = 0 then base else base ++ toString i :=
  exists_stops (suffixed_injective base) taken

theorem exists_underscored : ∃ i ≤ taken.toFinset.card,
    Stops (fun i => base ++ String.ofList (List.replicate i '_')) taken 0 i ∧
      underscored base taken = base ++ String.ofList (List.replicate i '_') :=
  exists_stops (underscored_injective base) taken

theorem indexed_not_mem : indexed base taken ∉ taken :=
  first_not_mem (indexed_injective base)

theorem suffixed_not_mem : suffixed base taken ∉ taken :=
  first_not_mem (suffixed_injective base)

theorem underscored_not_mem : underscored base taken ∉ taken :=
  first_not_mem (underscored_injective base)

/-- Each of the three searches stops, whatever the base and the taken names are: that of an
index, that of a positive index where the bare base is taken, and that of underscores.  It makes
no more steps than there are names to avoid.  The name that is returned is the one at which it
stops, begins with the base and is not taken, and the index that is put behind the base is the
least one that is free. -/
theorem searches_stop_at_free_names :
    (∃ i ≤ taken.toFinset.card, Stops (fun i => base ++ toString i) taken 0 i ∧
      indexed base taken = base ++ toString i ∧ (∀ j < i, base ++ toString j ∈ taken) ∧
      indexed base taken ≠ base) ∧
    (∃ i ≤ taken.toFinset.card,
      Stops (fun i => if i = 0 then base else base ++ toString i) taken 0 i ∧
      suffixed base taken = if i = 0 then base else base ++ toString i) ∧
    (∃ i ≤ taken.toFinset.card,
      Stops (fun i => base ++ String.ofList (List.replicate i '_')) taken 0 i ∧
      underscored base taken = base ++ String.ofList (List.replicate i '_')) ∧
    ∀ name ∈ [indexed base taken, suffixed base taken, underscored base taken],
      base.toList <+: name.toList ∧ name ∉ taken := by
  obtain ⟨i, hi, hstops, hindexed⟩ := exists_indexed base taken
  obtain ⟨j, -, -, hsuffixed⟩ := exists_suffixed base taken
  obtain ⟨k, -, -, hunderscored⟩ := exists_underscored base taken
  have hbegins : ∀ more : String, base.toList <+: (base ++ more).toList := by
    intro more
    rw [String.toList_append]
    exact List.prefix_append _ _
  refine ⟨⟨i, hi, hstops, hindexed, fun m hm => hstops.mem_of_lt (Nat.zero_le m) hm, ?_⟩,
    exists_suffixed base taken, exists_underscored base taken, ?_⟩
  · rw [hindexed]
    exact append_toString_ne base i
  · simp only [List.forall_mem_cons]
    refine ⟨⟨?_, indexed_not_mem base taken⟩, ⟨?_, suffixed_not_mem base taken⟩,
      ⟨?_, underscored_not_mem base taken⟩, by simp⟩
    · exact hindexed ▸ hbegins (toString i)
    · rw [hsuffixed]
      split
      · exact List.prefix_rfl
      · exact hbegins (toString j)
    · exact hunderscored ▸ hbegins _

end Searches

end RowGuard.Text.Fresh
