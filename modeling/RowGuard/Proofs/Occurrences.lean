import RowGuard.Evaluation.Strings
import RowGuard.Proofs.Numbers

/-!
# Finding a text in another one

LOCATE, SUBSTRING and LENGTH agree on what a position is.  A position that LOCATE gives is the
least one, from the start on, at which SUBSTRING cuts off the text that was searched for; it
gives zero where there is no such position.  All three count characters, and an empty text
occurs everywhere up to the position behind the last character.
-/

namespace RowGuard.Strings

open Arithmetic (give)

/-! ## Occurrences in lists of characters -/

/-- The characters stand behind the first `i` ones of a text. -/
def OccursAt (searched cs : List Char) (i : Nat) : Prop :=
  i + searched.length ≤ cs.length ∧ (cs.drop i).take searched.length = searched

theorem occursAt_iff {searched cs : List Char} {i : Nat} :
    OccursAt searched cs i ↔ i ≤ cs.length ∧ searched <+: cs.drop i := by
  rw [List.prefix_iff_eq_take, OccursAt, eq_comm (a := searched)]
  refine and_congr_left fun htake => ?_
  have hlength := congrArg List.length htake
  rw [List.length_take, List.length_drop] at hlength
  omega

theorem occursAt_zero {searched cs : List Char} :
    OccursAt searched cs 0 ↔ searched <+: cs := by
  simp [occursAt_iff]

theorem occursAt_succ {searched cs : List Char} {c : Char} {i : Nat} :
    OccursAt searched (c :: cs) (i + 1) ↔ OccursAt searched cs i := by
  simp [occursAt_iff]

/-- The least number of characters, from `skipped` on, behind which the searched ones stand. -/
structure IsFirst (searched cs : List Char) (skipped i : Nat) : Prop where
  from_start : skipped ≤ i
  occurs : OccursAt searched cs i
  least : ∀ j, skipped ≤ j → OccursAt searched cs j → i ≤ j

/-- The search finds the first occurrence, and fails only if there is none. -/
theorem offset?_spec (searched cs : List Char) :
    (∀ i, offset? searched cs = some i → IsFirst searched cs 0 i) ∧
      (offset? searched cs = none → ∀ i, ¬OccursAt searched cs i) := by
  induction cs with
  | nil =>
      cases searched with
      | nil =>
          refine ⟨?_, nofun⟩
          rintro i ⟨⟩
          exact ⟨Nat.le_refl 0, ⟨Nat.le_refl 0, rfl⟩, fun j _ _ => Nat.zero_le j⟩
      | cons d ds =>
          refine ⟨nofun, fun _ i h => ?_⟩
          have hle := h.1
          simp at hle
  | cons c cs ih =>
      by_cases hfront : searched.isPrefixOf (c :: cs)
      · rw [offset?, if_pos hfront]
        refine ⟨?_, nofun⟩
        rintro i ⟨⟩
        exact ⟨Nat.le_refl 0, occursAt_zero.mpr (List.isPrefixOf_iff_prefix.mp hfront),
          fun j _ _ => Nat.zero_le j⟩
      · have hzero : ¬OccursAt searched (c :: cs) 0 := fun h =>
          hfront (List.isPrefixOf_iff_prefix.mpr (occursAt_zero.mp h))
        rw [offset?, if_neg hfront]
        constructor
        · intro i hi
          obtain ⟨k, hk, rfl⟩ := Option.map_eq_some_iff.mp hi
          obtain ⟨-, hoccurs, hleast⟩ := ih.1 k hk
          refine ⟨Nat.zero_le _, occursAt_succ.mpr hoccurs, fun j _ hj => ?_⟩
          cases j with
          | zero => exact absurd hj hzero
          | succ j => exact Nat.succ_le_succ (hleast j (Nat.zero_le j) (occursAt_succ.mp hj))
        · intro hnone i hi
          cases i with
          | zero => exact hzero hi
          | succ i => exact ih.2 (Option.map_eq_none_iff.mp hnone) i (occursAt_succ.mp hi)

theorem occursAt_drop {searched cs : List Char} {skipped i : Nat} (h : skipped ≤ cs.length) :
    OccursAt searched (cs.drop skipped) i ↔ OccursAt searched cs (skipped + i) := by
  rw [OccursAt, OccursAt, List.drop_drop, List.length_drop]
  refine and_congr_left fun _ => ?_
  omega

/-- How many characters a search from a position on passes over. -/
def skippedBy (start : Int) : Nat := (max start 1 - 1).toNat

theorem position_spec (searched cs : List Char) (start : Int) :
    (∃ i, position searched cs start = i + 1 ∧ IsFirst searched cs (skippedBy start) i) ∨
      (position searched cs start = 0 ∧
        ∀ i, skippedBy start ≤ i → ¬OccursAt searched cs i) := by
  unfold position
  rw [← skippedBy]
  by_cases hbehind : cs.length < skippedBy start
  · refine Or.inr ⟨if_pos hbehind, fun i hi h => ?_⟩
    have := h.1
    omega
  have hle := Nat.le_of_not_lt hbehind
  obtain ⟨hfound, hmissing⟩ := offset?_spec searched (cs.drop (skippedBy start))
  simp only [if_neg hbehind]
  cases hoffset : offset? searched (cs.drop (skippedBy start)) with
  | some i =>
      obtain ⟨-, hoccurs, hleast⟩ := hfound i hoffset
      refine Or.inl ⟨skippedBy start + i, rfl, Nat.le_add_right _ _,
        (occursAt_drop hle).mp hoccurs, fun j hj hoccurs' => ?_⟩
      obtain ⟨k, rfl⟩ := Nat.exists_eq_add_of_le hj
      exact Nat.add_le_add_left (hleast k (Nat.zero_le k) ((occursAt_drop hle).mpr hoccurs')) _
  | none =>
      refine Or.inr ⟨rfl, fun j hj hoccurs => ?_⟩
      obtain ⟨k, rfl⟩ := Nat.exists_eq_add_of_le hj
      exact hmissing hoffset k ((occursAt_drop hle).mpr hoccurs)

/-! ## Occurrences as the functions tell them -/

theorem length_eq_give {w : World} {s : String} (n : Int64) :
    length w (.string s) = give (.integer n) ↔ n.toInt = s.toList.length := by
  have hlength : length w (.string s) = give (Value.ofInt s.toList.length) := rfl
  rw [hlength, give, give, Except.ok.injEq, Option.some.injEq, Value.ofInt]
  split
  · rename_i hfits
    rw [Value.integer.injEq, ← Int64.toInt_inj, toInt_ofInt hfits, eq_comm]
  · rename_i hfits
    constructor
    · intro h
      cases h
    · intro h
      rw [← h] at hfits
      exact absurd (fitsInteger_toInt n) hfits

theorem substring_eq {w : World} (s : String) (p m : Int64) :
    substring w (.string s) (.integer p) (some (.integer m)) = give (.string
      (String.ofList ((s.toList.drop (skippedBy p.toInt)).take m.toInt.toNat))) := rfl

/-- By the three functions: from the start on, at a position no further than one behind the text,
the searched text is cut off whole. -/
def Occurs (w : World) (search text : String) (start p : Int64) : Prop :=
  ∃ m n : Int64, length w (.string search) = give (.integer m) ∧
    length w (.string text) = give (.integer n) ∧
    max start.toInt 1 ≤ p.toInt ∧ p.toInt ≤ n.toInt + 1 ∧ p.toInt + m.toInt ≤ n.toInt + 1 ∧
    substring w (.string text) (.integer p) (some (.integer m)) = give (.string search)

theorem substring_eq_give_iff {w : World} {search text : String} {p m : Int64} {i : Nat}
    (hp : p.toInt = i + 1) (hm : m.toInt = search.toList.length) :
    substring w (.string text) (.integer p) (some (.integer m)) = give (.string search) ↔
      (text.toList.drop i).take search.toList.length = search.toList := by
  have hskipped : skippedBy p.toInt = i := by
    rw [skippedBy]
    omega
  rw [substring_eq, hskipped, hm, Int.toNat_natCast, give, give, Except.ok.injEq,
    Option.some.injEq, Value.string.injEq, ← String.toList_inj, String.toList_ofList]

/-- A text whose characters an integer can count has a length. -/
theorem exists_length {w : World} {s : String} (h : s.toList.length < 2 ^ 63) :
    ∃ n : Int64, length w (.string s) = give (.integer n) ∧ n.toInt = s.toList.length := by
  have hfits : fitsInteger s.toList.length := fitsInteger_iff.mpr (by omega)
  have hn : (Int64.ofInt s.toList.length).toInt = s.toList.length := toInt_ofInt hfits
  exact ⟨_, (length_eq_give _).mpr hn, hn⟩

theorem occurs_iff {w : World} {search text : String} {start p : Int64}
    (htext : text.toList.length < 2 ^ 63) :
    Occurs w search text start p ↔ ∃ i : Nat, p.toInt = i + 1 ∧ skippedBy start.toInt ≤ i ∧
      OccursAt search.toList text.toList i := by
  constructor
  · rintro ⟨m, n, hm, hn, hstart, hposition, hend, hsubstring⟩
    rw [length_eq_give] at hm hn
    have hp : p.toInt = ((p.toInt - 1).toNat : Int) + 1 := by omega
    refine ⟨(p.toInt - 1).toNat, hp, ?_, ?_, (substring_eq_give_iff hp hm).mp hsubstring⟩
    · rw [skippedBy]
      omega
    · omega
  · rintro ⟨i, hp, hstart, hoccurs⟩
    have hle := hoccurs.1
    rw [skippedBy] at hstart
    obtain ⟨n, hn, hlength⟩ := exists_length (w := w) htext
    obtain ⟨m, hm, hsearch⟩ := exists_length (w := w) (s := search) (by omega)
    refine ⟨m, n, hm, hn, ?_, ?_, ?_, (substring_eq_give_iff hp hsearch).mpr hoccurs.2⟩ <;> omega

/-- The first occurrence of an empty text is where the search starts, so its position is one that
an integer can hold. -/
theorem IsFirst.fits {searched cs : List Char} {start : Int64} {i : Nat}
    (h : IsFirst searched cs (skippedBy start.toInt) i) (hcs : cs.length < 2 ^ 63) :
    fitsInteger ((i + 1 : Nat) : Int) := by
  have hle := h.occurs.1
  have hstart := start.toInt_lt
  rw [fitsInteger_iff]
  by_cases hempty : searched = []
  · subst hempty
    have hfirst : i ≤ skippedBy start.toInt := by
      refine h.least _ (Nat.le_refl _) (occursAt_iff.mpr ⟨?_, List.nil_prefix⟩)
      exact Nat.le_trans h.from_start hle
    rw [skippedBy] at hfirst
    omega
  · have := List.length_pos_of_ne_nil hempty
    omega

/-- LOCATE gives the least position at which the text occurs by SUBSTRING and LENGTH, and zero
if it occurs nowhere; positions and lengths are numbers of characters.  A text has fewer than
2^63 of them, as its bytes are counted in 63 bits wherever it is held. -/
theorem locate_first_occurrence (w : World) (search text : String) (start : Int64)
    (htext : text.toList.length < 2 ^ 63) :
    (∃ n : Int64, length w (.string text) = give (.integer n) ∧
      n.toInt = text.toList.length) ∧
    (∀ p m : Int64, substring w (.string text) (.integer p) (some (.integer m)) =
      give (.string (String.ofList
        ((text.toList.drop (max p.toInt 1 - 1).toNat).take m.toInt.toNat)))) ∧
    ∃ p : Int64, locate w (.string search) (.string text) (some (.integer start)) =
        give (.integer p) ∧
      ((Occurs w search text start p ∧ ∀ q, Occurs w search text start q → p.toInt ≤ q.toInt) ∨
        (p = 0 ∧ ∀ q, ¬Occurs w search text start q)) := by
  refine ⟨exists_length htext, fun p m => substring_eq text p m, ?_⟩
  have hlocate : locate w (.string search) (.string text) (some (.integer start)) =
      give (Value.ofInt (position search.toList text.toList start.toInt)) := rfl
  rw [hlocate]
  rcases position_spec search.toList text.toList start.toInt with
    ⟨i, hposition, hfirst⟩ | ⟨hposition, hnone⟩
  · have hfits := hfirst.fits htext
    have hp : (Int64.ofInt ((i + 1 : Nat) : Int)).toInt = i + 1 := toInt_ofInt hfits
    refine ⟨_, by rw [hposition, Value.ofInt, if_pos hfits],
      Or.inl ⟨(occurs_iff htext).mpr ⟨i, hp, hfirst.from_start, hfirst.occurs⟩, fun q hq => ?_⟩⟩
    obtain ⟨j, hj, hstart, hoccurs⟩ := (occurs_iff htext).mp hq
    have hle := hfirst.least j hstart hoccurs
    rw [hp, hj]
    omega
  · refine ⟨0, by rw [hposition]; rfl, Or.inr ⟨rfl, fun q hq => ?_⟩⟩
    obtain ⟨j, -, hstart, hoccurs⟩ := (occurs_iff htext).mp hq
    exact hnone j hstart hoccurs

/-- The first of two letters that take two bytes each stands before the start. -/
theorem locate_first_occurrence_accent :
    "héé".toList.length < 2 ^ 63 ∧
      locate ⟨[]⟩ (.string "é") (.string "héé") (some (.integer 3)) = give (.integer 3) ∧
      Occurs ⟨[]⟩ "é" "héé" 3 3 ∧ ∀ q, Occurs ⟨[]⟩ "é" "héé" 3 q → 3 ≤ q.toInt := by
  have hshort : "héé".toList.length < 2 ^ 63 := by decide
  have hlocate : locate ⟨[]⟩ (.string "é") (.string "héé") (some (.integer 3)) =
      give (.integer 3) := by
    have hposition : position "é".toList "héé".toList (3 : Int64).toInt = 3 := by decide +kernel
    have hgive : locate ⟨[]⟩ (.string "é") (.string "héé") (some (.integer 3)) =
        give (Value.ofInt (position "é".toList "héé".toList (3 : Int64).toInt)) := rfl
    rw [hgive, hposition]
    rfl
  obtain ⟨-, -, p, hp, hfirst⟩ := locate_first_occurrence ⟨[]⟩ "é" "héé" 3 hshort
  obtain rfl : p = 3 := by
    rw [hlocate] at hp
    simpa [give, eq_comm] using hp
  rcases hfirst with hfirst | ⟨hzero, -⟩
  · exact ⟨hshort, hlocate, hfirst⟩
  · cases hzero

end RowGuard.Strings
