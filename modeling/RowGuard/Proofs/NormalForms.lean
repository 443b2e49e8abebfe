import RowGuard.Proofs.Rules

/-!
# Normal phrases

A phrase is normal if normalising has nothing to do at any of its nodes.  Normal
forms are normal, and so are all parts of a normal phrase.  A subselect that stands
in the condition of a rule is therefore checked at run time exactly as it stands.
-/

namespace RowGuard.Query

open Phrase

namespace NormalForm

/-- A node that normalising leaves alone: no operand of a conjunction is one itself,
likewise for a disjunction, and brackets enclose nothing that stands by itself. -/
structure IsTight (l : Label) (cs : List Phrase) : Prop where
  operands : l = .and ∨ l = .or → ∀ c ∈ cs, c.label ≠ l
  enclosed : l = .brackets → ∀ c, cs = [c] → c.label.isAtomic = false

theorem flatMap_splice {l : Label} {cs : List Phrase} (h : ∀ c ∈ cs, c.label ≠ l) :
    cs.flatMap (splice l) = cs := by
  induction cs with
  | nil => rfl
  | cons c cs ih =>
      obtain ⟨hc, hcs⟩ := List.forall_mem_cons.mp h
      rw [List.flatMap_cons, splice, if_neg hc, ih hcs]
      rfl

theorem close_of_isTight {l : Label} {cs : List Phrase} (h : IsTight l cs) (s : Source.Span) :
    close l cs s = .node l cs s := by
  unfold close
  split
  · rw [flatMap_splice (h.operands (by simp))]
  · rw [flatMap_splice (h.operands (by simp))]
  · split
    · rename_i t
      have hatomic : t.label.isAtomic = false := h.enclosed rfl t rfl
      simp [hatomic]
    · rfl
  · rfl

end NormalForm

open NormalForm

namespace Phrase

/-- Normalising has nothing to do at any node. -/
def IsNormal (t : Phrase) : Prop :=
  ∀ l cs s, .node l cs s ∈ t.nodes → IsTight l cs

theorem IsNormal.of_mem_nodes {t u : Phrase} (h : t.IsNormal) (hu : u ∈ t.nodes) :
    u.IsNormal :=
  fun l cs s hmem => h l cs s (mem_nodes_trans hu hmem)

theorem IsNormal.child {l : Label} {cs : List Phrase} {s : Source.Span} {c : Phrase}
    (h : (Phrase.node l cs s).IsNormal) (hc : c ∈ cs) : c.IsNormal :=
  h.of_mem_nodes (mem_nodes_of_child hc (mem_nodes_self c))

theorem isNormal_node {l : Label} {cs : List Phrase} {s : Source.Span}
    (hcs : ∀ c ∈ cs, c.IsNormal) (htight : IsTight l cs) : (Phrase.node l cs s).IsNormal := by
  intro m ds r hmem
  rcases mem_nodes_node.mp hmem with heq | ⟨c, hc, hmem⟩
  · cases heq
    exact htight
  · exact hcs c hc m ds r hmem

theorem isNormal_namedParameter (name : String) : (namedParameter name).IsNormal :=
  isNormal_node (by simp) ⟨by simp, by simp⟩

mutual

theorem IsNormal.normalize_eq : ∀ {t : Phrase}, t.IsNormal → t.normalize = t
  | .node l cs s, h => by
      rw [normalize, normalizeAll_of_isNormal fun c hc => h.child hc]
      exact close_of_isTight (h l cs s (mem_nodes_self _)) s

theorem normalizeAll_of_isNormal : ∀ {ts : List Phrase}, (∀ t ∈ ts, t.IsNormal) →
    normalizeAll ts = ts
  | [], _ => rfl
  | t :: ts, h => by
      obtain ⟨ht, hts⟩ := List.forall_mem_cons.mp h
      rw [normalizeAll, ht.normalize_eq, normalizeAll_of_isNormal hts]

end

/-- Operands that are spliced in are normal and no conjunctions or disjunctions of the
same label, since they were operands of such a one before. -/
theorem isNormal_of_mem_splice {l : Label} (hl : l = .and ∨ l = .or) {t c : Phrase}
    (ht : t.IsNormal) (hc : c ∈ splice l t) : c.IsNormal ∧ c.label ≠ l := by
  obtain ⟨m, cs, s⟩ := t
  unfold splice at hc
  split at hc
  · rename_i hlabel
    obtain rfl : m = l := hlabel
    exact ⟨ht.child hc, (ht m cs s (mem_nodes_self _)).operands hl c hc⟩
  · rename_i hlabel
    rw [List.mem_singleton.mp hc]
    exact ⟨ht, hlabel⟩

theorem isNormal_spliced {l : Label} (hl : l = .and ∨ l = .or) {cs : List Phrase}
    (h : ∀ c ∈ cs, c.IsNormal) (s : Source.Span) :
    (Phrase.node l (cs.flatMap (splice l)) s).IsNormal := by
  have hall : ∀ c ∈ cs.flatMap (splice l), c.IsNormal ∧ c.label ≠ l := by
    intro c hc
    obtain ⟨t, ht, hc⟩ := List.mem_flatMap.mp hc
    exact isNormal_of_mem_splice hl (h t ht) hc
  apply isNormal_node fun c hc => (hall c hc).1
  constructor
  · exact fun _ c hc => (hall c hc).2
  · rintro rfl
    simp at hl

theorem isNormal_close {l : Label} {cs : List Phrase} (h : ∀ c ∈ cs, c.IsNormal)
    (s : Source.Span) : (close l cs s).IsNormal := by
  unfold close
  split
  · exact isNormal_spliced (by simp) h s
  · exact isNormal_spliced (by simp) h s
  · split
    · rename_i t
      split
      · exact h t (by simp)
      · rename_i hatomic
        apply isNormal_node h
        constructor
        · simp
        · rintro - c heq
          cases heq
          simpa using hatomic
    · rename_i hmany
      exact isNormal_node h ⟨by simp, fun _ c heq => absurd heq (hmany c)⟩
  · rename_i hand hor hbrackets
    exact isNormal_node h ⟨fun hl => (hl.elim hand hor).elim, fun hl => (hbrackets hl).elim⟩

mutual

/-- Normal forms are normal. -/
theorem isNormal_normalize : ∀ t : Phrase, t.normalize.IsNormal
  | .node _ cs s => isNormal_close (isNormal_of_mem_normalizeAll cs) s

theorem isNormal_of_mem_normalizeAll : ∀ (ts : List Phrase), ∀ u ∈ normalizeAll ts, u.IsNormal
  | [] => by simp [normalizeAll]
  | t :: ts => List.forall_mem_cons.mpr ⟨isNormal_normalize t, isNormal_of_mem_normalizeAll ts⟩

end

end Phrase

end RowGuard.Query
