import Mathlib.Data.List.Flatten
import RowGuard.Proofs.Subtypes

/-!
# Searches for supertypes

A type can be looked for with a list of the names that are still to be looked up and
another one of those that were.  The references of a class are put in front of the names
that are left, and a name that comes up again is passed over.  So each reference is
taken once at most, and the search ends whatever circles the references run in.  It
misses nothing: past its last visit to a name that was looked up, a chain of references
does without it.
-/

namespace RowGuard.Mapping

open Relation (TransGen)

variable {m : Mapping} {left : List EntityClass} {name sup : String} {c : EntityClass}

/-- The number of references that classes hold. -/
def references (classes : List EntityClass) : Nat := (classes.flatMap EntityClass.parents).length

/-- The references of a class that is taken out are gone. -/
theorem references_without (hc : lookUp left name = some c) :
    c.parents.length + references (without left name) ≤ references left := by
  induction left with
  | nil => cases hc
  | cons d ds ih =>
      have hall : references (d :: ds) = d.parents.length + references ds := by
        simp [references]
      by_cases hd : d.name = name
      · obtain rfl : d = c := by simpa [lookUp, hd] using hc
        have hsub : (without (d :: ds) name).Sublist ds := by simp [without, hd]
        have hrest : references (without (d :: ds) name) ≤ references ds :=
          (hsub.flatMap EntityClass.parents).length_le
        omega
      · have hds : lookUp ds name = some c := by simpa [lookUp, hd] using hc
        have hrest : references (without (d :: ds) name) =
            d.parents.length + references (without ds name) := by
          simp [references, without, hd]
        have hless := ih hds
        omega

theorem without_of_unmapped (hnone : lookUp left name = none) : without left name = left := by
  refine List.filter_eq_self.mpr fun d hd => ?_
  simpa using List.find?_eq_none.mp hnone d hd

/-- A search on its way: the names that were looked up, and those that are still to be,
the next one first. -/
structure Search where
  seen : List String
  pending : List String

namespace Search

/-- One step, which answers or leaves a search.  Of the references of a class the last one
is looked up next. -/
def step (m : Mapping) (sup : String) (s : Search) : Search ⊕ Bool :=
  match s.pending with
  | [] => .inr false
  | name :: rest =>
      if s.seen.contains name then .inl ⟨s.seen, rest⟩
      else
        match m.class? name with
        | none => .inl ⟨name :: s.seen, rest⟩
        | some c =>
            if c.parents.contains sup then .inr true
            else .inl ⟨name :: s.seen, c.parents.reverse ++ rest⟩

/-- The answer, if some number of steps is enough for it. -/
def answerWithin (m : Mapping) (sup : String) : Nat → Search → Option Bool
  | 0, _ => none
  | n + 1, s =>
      match s.step m sup with
      | .inl s' => answerWithin m sup n s'
      | .inr found => some found

/-- The classes that were not looked up. -/
def unseen (m : Mapping) (seen : List String) : List EntityClass :=
  m.classes.filter fun c => !seen.contains c.name

/-- A chain of references leads to the type from a name that is still to be looked up. -/
def Leads (m : Mapping) (sup : String) (s : Search) : Prop :=
  ∃ start ∈ s.pending, TransGen (Refers (unseen m s.seen)) start sup

/-- How many names can still come up. -/
def size (m : Mapping) (s : Search) : Nat := s.pending.length + references (unseen m s.seen)

theorem lookUp_unseen (m : Mapping) (seen : List String) (name : String) :
    lookUp (unseen m seen) name = if seen.contains name then none else m.class? name := by
  unfold lookUp unseen
  rw [List.find?_filter]
  split
  · rename_i hseen
    refine List.find?_eq_none.mpr fun d _ hd => ?_
    obtain ⟨hunseen, hname⟩ := of_decide_eq_true hd
    rw [beq_iff_eq.mp hname, hseen] at hunseen
    cases hunseen
  · rename_i hseen
    congr 1
    funext d
    by_cases hd : d.name = name
    · simp_all
    · simp [hd]

theorem unseen_cons (m : Mapping) (seen : List String) (name : String) :
    unseen m (name :: seen) = without (unseen m seen) name := by
  unfold unseen without
  rw [List.filter_filter]
  congr 1
  funext d
  by_cases hd : d.name = name <;> simp [hd]

/-! ## Steps -/

variable {seen rest : List String}

/-- A name under which nothing is left to look up is passed over. -/
theorem step_of_none (hnone : lookUp (unseen m seen) name = none) (sup : String)
    (rest : List String) :
    ∃ seen', step m sup ⟨seen, name :: rest⟩ = .inl ⟨seen', rest⟩ ∧
      unseen m seen' = unseen m seen := by
  by_cases hseen : seen.contains name
  · exact ⟨seen, if_pos hseen, rfl⟩
  · have hclass : m.class? name = none := by
      rw [← hnone, lookUp_unseen, if_neg hseen]
    refine ⟨name :: seen, ?_, ?_⟩
    · simp only [step, if_neg hseen, hclass]
    · rw [unseen_cons, without_of_unmapped hnone]

/-- A class answers the search, or it leaves its references to be looked up. -/
theorem step_of_some (hc : lookUp (unseen m seen) name = some c) (sup : String)
    (rest : List String) :
    step m sup ⟨seen, name :: rest⟩ =
      if c.parents.contains sup then .inr true
      else .inl ⟨name :: seen, c.parents.reverse ++ rest⟩ := by
  rw [lookUp_unseen] at hc
  by_cases hseen : seen.contains name
  · rw [if_pos hseen] at hc
    cases hc
  · rw [if_neg hseen] at hc
    simp only [step, if_neg hseen, hc]

/-- A step answers whether a chain leads to the type, or it leaves a smaller search that such
a chain leads through just as well. -/
theorem step_cases (m : Mapping) (sup : String) (s : Search) :
    (∃ found : Bool, s.step m sup = .inr found ∧ (found ↔ s.Leads m sup)) ∨
      ∃ s', s.step m sup = .inl s' ∧ (s'.Leads m sup ↔ s.Leads m sup) ∧ s'.size m < s.size m := by
  obtain ⟨seen, pending⟩ := s
  cases pending with
  | nil => exact Or.inl ⟨false, rfl, by simp [Leads]⟩
  | cons name rest =>
      cases hname : lookUp (unseen m seen) name with
      | none =>
          obtain ⟨seen', hstep, hunseen⟩ := step_of_none hname sup rest
          refine Or.inr ⟨_, hstep, ?_, ?_⟩
          · simp only [Leads, hunseen]
            exact (exists_transGen_cons_unmapped_iff hname).symm
          · simp [size, hunseen]
      | some c =>
          have hleads : Leads m sup ⟨seen, name :: rest⟩ ↔ sup ∈ c.parents ∨ ∃ start ∈
              c.parents ++ rest, TransGen (Refers (without (unseen m seen) name)) start sup :=
            exists_transGen_cons_iff hname
          have hstep := step_of_some hname sup rest
          by_cases hsup : sup ∈ c.parents
          · rw [if_pos (List.contains_iff_mem.mpr hsup)] at hstep
            exact Or.inl ⟨true, hstep, iff_of_true rfl (hleads.mpr (Or.inl hsup))⟩
          · rw [if_neg (fun h => hsup (List.contains_iff_mem.mp h))] at hstep
            refine Or.inr ⟨_, hstep, ?_, ?_⟩
            · show (∃ start ∈ c.parents.reverse ++ rest, _) ↔ _
              rw [unseen_cons]
              simpa [Leads, hsup] using hleads.symm
            · have hless := references_without hname
              simp only [size, unseen_cons, List.length_append, List.length_reverse,
                List.length_cons]
              omega

/-- The search ends after no more steps than names can come up, and its answer is right. -/
theorem answerWithin_of_size_lt (m : Mapping) (sup : String) (n : Nat) (s : Search)
    (h : s.size m < n) :
    ∃ found : Bool, answerWithin m sup n s = some found ∧ (found ↔ s.Leads m sup) := by
  induction n generalizing s with
  | zero => cases h
  | succ n ih =>
      obtain ⟨found, hstep, hfound⟩ | ⟨s', hstep, hleads, hless⟩ := step_cases m sup s
      · exact ⟨found, by simp only [answerWithin, hstep], hfound⟩
      · obtain ⟨found, hanswer, hfound⟩ := ih s' (by omega)
        exact ⟨found, by simp only [answerWithin, hstep, hanswer], hfound.trans hleads⟩

end Search

/-! ## Reachability -/

/-- A type is assignable to itself and to whatever a chain of references from mapped classes
leads to, and to nothing else.  Looking each name up once, this is told in a number of steps
that the number of references bounds. -/
theorem isAssignable_is_reachability (m : Mapping) :
    (∀ sub sup, m.isAssignable sub sup ↔ sup = sub ∨ TransGen (Refers m.classes) sub sup) ∧
    (∀ sub sup, ∃ found : Bool,
      Search.answerWithin m sup (references m.classes + 2) ⟨[], [sub]⟩ = some found ∧
        m.isAssignable sub sup = (sub == sup || found)) ∧
    (∀ type, m.isAssignable type type) ∧
    ∀ sub middle sup, m.isAssignable sub middle → m.isAssignable middle sup →
      m.isAssignable sub sup := by
  have hreach : ∀ sub sup, m.isAssignable sub sup ↔
      sup = sub ∨ TransGen (Refers m.classes) sub sup := fun sub sup => by
    rw [isAssignable_iff, IsSubtype, Relation.reflTransGen_iff_eq_or_transGen]
  refine ⟨hreach, fun sub sup => ?_, fun type => isAssignable_iff.mpr .refl, ?_⟩
  · have hunseen : Search.unseen m [] = m.classes := by simp [Search.unseen]
    obtain ⟨found, hanswer, hfound⟩ := Search.answerWithin_of_size_lt m sup
      (references m.classes + 2) ⟨[], [sub]⟩ (by simp [Search.size, hunseen]; omega)
    refine ⟨found, hanswer, ?_⟩
    rw [Bool.eq_iff_iff, hreach, Bool.or_eq_true, beq_iff_eq, hfound]
    simp [Search.Leads, hunseen, eq_comm]
  · intro sub middle sup hsub hsup
    exact isAssignable_iff.mpr ((isAssignable_iff.mp hsub).trans (isAssignable_iff.mp hsup))

/-- Documents and drafts inherit from each other, and only documents say that they have
owners. -/
def circularMapping : Mapping where
  classes := [
    { name := "Document", superclass? := some "Draft", interfaces := ["Owned"] },
    { name := "Draft", superclass? := some "Document" }]

theorem isAssignable_is_reachability_circular :
    circularMapping.isAssignable "Draft" "Document" ∧
      circularMapping.isAssignable "Document" "Owned" ∧
      circularMapping.isAssignable "Draft" "Owned" ∧
      ¬ circularMapping.isAssignable "Owned" "Draft" := by
  obtain ⟨hreach, -, -, htrans⟩ := isAssignable_is_reachability circularMapping
  have hdraft : circularMapping.isAssignable "Draft" "Document" :=
    (hreach _ _).mpr (Or.inr (.single ⟨_, rfl, by decide⟩))
  have howned : circularMapping.isAssignable "Document" "Owned" :=
    (hreach _ _).mpr (Or.inr (.single ⟨_, rfl, by decide⟩))
  refine ⟨hdraft, howned, htrans _ _ _ hdraft howned, fun h => ?_⟩
  obtain heq | hchain := (hreach _ _).mp h
  · exact absurd heq (by decide)
  · exact not_transGen_of_unmapped rfl hchain

end RowGuard.Mapping
