import Mathlib.Logic.Relation
import RowGuard.Mapping.Basic

/-!
# Subtypes

A class is of a type if a chain of superclass and interface references leads from
the class to the type.  The search for such a chain takes the class that it looks at
out of the ones that are left.  No chain is lost by that, whatever circles the
references run in: past its last visit to a class, a chain does without it.
-/

namespace RowGuard.Mapping

open Relation (ReflTransGen TransGen)

variable {left : List EntityClass} {name sub sup : String} {c : EntityClass}

/-- Among some classes, one refers to a type as its supertype. -/
def Refers (left : List EntityClass) (sub sup : String) : Prop :=
  ∃ c, lookUp left sub = some c ∧ sup ∈ c.parents

/-- The mapping makes the objects of a type objects of another one. -/
def IsSubtype (m : Mapping) (sub sup : String) : Prop := ReflTransGen (Refers m.classes) sub sup

theorem lookUp_without (hne : sub ≠ name) : lookUp (without left name) sub = lookUp left sub := by
  unfold lookUp without
  rw [List.find?_filter]
  congr 1
  funext d
  by_cases hd : d.name = sub
  · simp [hd, hne]
  · simp [hd]

theorem lookUp_without_self : lookUp (without left name) name = none := by
  simp [lookUp, without]

theorem lookUp_of_without (h : lookUp (without left name) sub = some c) :
    sub ≠ name ∧ lookUp left sub = some c := by
  have hne : sub ≠ name := by
    rintro rfl
    rw [lookUp_without_self] at h
    cases h
  exact ⟨hne, lookUp_without hne ▸ h⟩

theorem Refers.of_without (h : Refers (without left name) sub sup) : Refers left sub sup := by
  obtain ⟨d, hd, hsup⟩ := h
  exact ⟨d, (lookUp_of_without hd).2, hsup⟩

theorem not_transGen_of_unmapped (h : lookUp left name = none) :
    ¬ TransGen (Refers left) name sup := by
  intro hchain
  obtain ⟨next, ⟨d, hd, -⟩, -⟩ := TransGen.head'_iff.mp hchain
  rw [h] at hd
  cases hd

/-- A chain that starts anywhere does without a class, or it ends in a chain from a parent
of this class that does. -/
theorem transGen_without (hc : lookUp left name = some c)
    (h : TransGen (Refers left) sub sup) :
    TransGen (Refers (without left name)) sub sup ∨ sup ∈ c.parents ∨
      ∃ parent ∈ c.parents, TransGen (Refers (without left name)) parent sup := by
  -- One step leaves the class, or it does not need it.
  have hstep : ∀ {a b}, Refers left a b → b ∈ c.parents ∨ Refers (without left name) a b := by
    rintro a b ⟨d, hd, hb⟩
    by_cases hname : a = name
    · subst hname
      obtain rfl := Option.some.inj (hc.symm.trans hd)
      exact Or.inl hb
    · exact Or.inr ⟨d, (lookUp_without hname).trans hd, hb⟩
  induction h using TransGen.head_induction_on with
  | single hlast =>
      rcases hstep hlast with hparent | hlast
      · exact Or.inr (Or.inl hparent)
      · exact Or.inl (.single hlast)
  | head hfirst _ ih =>
      rcases ih with hrest | hparent
      · rcases hstep hfirst with hparent | hfirst
        · exact Or.inr (Or.inr ⟨_, hparent, hrest⟩)
        · exact Or.inl (.head hfirst hrest)
      · exact Or.inr hparent

/-- To look at a class is to look for the type among its parents and to go on from there
without the class. -/
theorem exists_transGen_cons_iff (hc : lookUp left name = some c) {rest : List String} :
    (∃ start ∈ name :: rest, TransGen (Refers left) start sup) ↔
      sup ∈ c.parents ∨
        ∃ start ∈ c.parents ++ rest, TransGen (Refers (without left name)) start sup := by
  constructor
  · rintro ⟨start, hstart, hchain⟩
    rcases transGen_without hc hchain with hchain | hsup | ⟨parent, hparent, hchain⟩
    · rcases List.mem_cons.mp hstart with rfl | hrest
      · exact absurd hchain (not_transGen_of_unmapped lookUp_without_self)
      · exact Or.inr ⟨start, List.mem_append_right _ hrest, hchain⟩
    · exact Or.inl hsup
    · exact Or.inr ⟨parent, List.mem_append_left _ hparent, hchain⟩
  · rintro (hsup | ⟨start, hstart, hchain⟩)
    · exact ⟨name, by simp, .single ⟨c, hc, hsup⟩⟩
    · have hleft := TransGen.mono (fun _ _ => Refers.of_without) _ _ hchain
      rcases List.mem_append.mp hstart with hparent | hrest
      · exact ⟨name, by simp, .head ⟨c, hc, hparent⟩ hleft⟩
      · exact ⟨start, List.mem_cons_of_mem name hrest, hleft⟩

/-- A name that is not mapped leads nowhere. -/
theorem exists_transGen_cons_unmapped_iff (hnone : lookUp left name = none)
    {rest : List String} :
    (∃ start ∈ name :: rest, TransGen (Refers left) start sup) ↔
      ∃ start ∈ rest, TransGen (Refers left) start sup := by
  simp [not_transGen_of_unmapped hnone]

/-- The search finds a type exactly if a chain leads to it from where the search starts. -/
theorem reaches_iff (sup : String) (left : List EntityClass) (pending : List String) :
    reaches sup left pending ↔ ∃ start ∈ pending, TransGen (Refers left) start sup := by
  fun_induction reaches sup left pending with
  | case1 => simp
  | case2 left name rest hnone ih => rw [ih, exists_transGen_cons_unmapped_iff hnone]
  | case3 left name rest c hc ih =>
      rw [Bool.or_eq_true, List.contains_iff_mem, ih, exists_transGen_cons_iff hc]

/-- An object of one type is one of another exactly if the mapping says so, step by step. -/
theorem isAssignable_iff {m : Mapping} : m.isAssignable sub sup ↔ m.IsSubtype sub sup := by
  rw [isAssignable, Bool.or_eq_true, beq_iff_eq, reaches_iff, IsSubtype,
    Relation.reflTransGen_iff_eq_or_transGen]
  simp [eq_comm]

end RowGuard.Mapping
