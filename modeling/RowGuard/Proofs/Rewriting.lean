import RowGuard.Proofs.Polarity
import RowGuard.Proofs.Selections
import RowGuard.Proofs.Separations

/-!
# Restricted conditions

The condition of a restricted query is that of the query itself together with
one for each object path, and such a condition asks for one of those that the
rules leave.  So it holds only where the query's own condition holds and some
rule holds for each path, and it holds or fails wherever they do.
-/

namespace RowGuard

open Query (AccessKind Label Phrase Statement)
open Query.Phrase
open Restriction

/-! ## The condition of a statement -/

namespace Restriction

theorem find?_replaceCondition (condition : Phrase) {cs : List Phrase}
    (h : cs.any fun c => c.label == .whereClause) :
    ∃ span, (replaceCondition condition cs).find? (fun c => decide (c.label = .whereClause)) =
      some (.node .whereClause [condition] span) := by
  induction cs with
  | nil => cases h
  | cons c cs ih =>
      obtain ⟨l, ts, span⟩ := c
      by_cases hl : l = .whereClause
      · subst hl
        exact ⟨span, rfl⟩
      · have hrest : cs.any fun c => c.label == .whereClause := by
          simpa [Phrase.label, hl] using h
        have hstep : replaceCondition condition (.node l ts span :: cs) =
            .node l ts span :: replaceCondition condition cs := by
          cases l <;> first | rfl | exact absurd rfl hl
        rw [hstep, List.find?_cons_of_neg (by simp [Phrase.label, hl])]
        exact ih hrest

theorem find?_insertClause (condition : Phrase) {cs : List Phrase}
    (h : ¬cs.any fun c => c.label == .whereClause) :
    (insertClause (whereClause condition) cs).find?
      (fun c => decide (c.label = .whereClause)) = some (whereClause condition) := by
  induction cs with
  | nil => rfl
  | cons c cs ih =>
      simp only [List.any_cons, Bool.or_eq_true, beq_iff_eq, not_or] at h
      unfold insertClause
      split
      · rw [List.find?_cons_of_neg (by simpa using h.1)]
        rfl
      · rw [List.find?_cons_of_neg (by simpa using h.1)]
        exact ih h.2

/-- A statement has the condition that it has been given. -/
theorem conditionOf?_setCondition (condition : Phrase) (t : Phrase) :
    (setCondition condition t).conditionOf? = some condition := by
  obtain ⟨l, cs, span⟩ := t
  unfold conditionOf? findChild?
  by_cases h : cs.any fun c => c.label == .whereClause
  · obtain ⟨s, hfind⟩ := find?_replaceCondition condition h
    rw [setCondition, if_pos h, Phrase.children, hfind]
    rfl
  · rw [setCondition, if_neg h, Phrase.children, find?_insertClause condition h]
    rfl

/-- The conditions that a restricted query asks for together. -/
def demands (s : Statement) (found : List Phrase) : List Phrase :=
  (s.condition?.map bracketed).toList ++ found

theorem conditionOf?_addRestrictions {s : Statement} (hs : s.condition? = s.phrase.conditionOf?)
    (found : List Phrase) :
    (addRestrictions s found).conditionOf? =
      if found = [] then s.condition? else some (conjunction (demands s found)) := by
  unfold addRestrictions
  cases found with
  | nil => exact hs.symm
  | cons t ts => exact conditionOf?_setCondition _ _

end Restriction

theorem Query.Statement.condition?_of_ofPhrase {model? : Option Query.TypeModel} {t : Phrase}
    {s : Statement} (h : Statement.ofPhrase model? t = .ok s) :
    s.condition? = s.phrase.conditionOf? := by
  obtain ⟨definitions, subselects, heq⟩ := Query.Statement.eq_assemble_of_ofPhrase h
  rw [heq]
  rfl

/-! ## Truth at some nesting -/

namespace Evaluator

/-- What subselects yield where some nesting is left. -/
def subselectAt (ev : Evaluator) (env : Environment) : Nat → Phrase → Eval Value
  | 0 => fun _ => Eval.undefined
  | n + 1 => ev.subselect (ev.valueAt n) env

theorem valueAt_eq (ev : Evaluator) (n : Nat) (env : Environment) (t : Phrase) :
    ev.valueAt n env t = Expression.value ev (ev.subselectAt env n) env t := by
  cases n <;> rfl

/-- The truth of a condition where some nesting is left. -/
def truthAt (ev : Evaluator) (n : Nat) (env : Environment) (t : Phrase) : Traced (Option Bool) :=
  Expression.truthOf ev (ev.subselectAt env n) env t

theorem truth_eq (ev : Evaluator) (env : Environment) (t : Phrase) :
    ev.truth env t = ev.truthAt t.depth env t := by
  unfold truth truthAt Expression.truthOf value
  rw [valueAt_eq]

/-- Corresponding conditions have the same truth, whatever nesting beyond their own is left. -/
theorem truthAt_agree {lenient : Prop} {ev : Evaluator} {k : Link} {i j : Nat} {ρ : Pairs}
    {env env' : Environment} {t u : Phrase}
    (hexact : .persistenceSession ∈ ev.strategies → k.exact)
    (henv : EnvironmentsAgree lenient ev k ρ env env') (h : Corresponds k i j ρ t u) {n n' : Nat}
    (hn : t.depth ≤ n) (hn' : u.depth ≤ n') :
    Traced.Agree lenient Eq (ev.truthAt n env t) (ev.truthAt n' env' u) := by
  have hvalues := valueAt_agree (n := n) hexact hn hn' henv
    (h.lower (Nat.le_refl t.depth) (Nat.le_refl u.depth))
  rw [valueAt_eq, valueAt_eq] at hvalues
  unfold truthAt Expression.truthOf
  refine Traced.Agree.bind hvalues fun v v' _ _ heq => ?_
  rw [show v = v' from heq]
  exact Traced.Agree.refl (fun _ => rfl) _

end Evaluator

/-! ## Conjunctions and disjunctions -/

namespace Expression

variable {ev : Evaluator} {sub : Phrase → Eval Value} {env : Environment}

/-- A condition that holds or cannot be evaluated. -/
def HoldsOrFails (x : Traced (Option Bool)) : Prop :=
  ∀ b, x.outcome = .ok b → b = some true

theorem truthOf_ofTruth {t : Phrase} {x : Traced (Option Bool)}
    (h : value ev sub env t = Eval.ofTruth x) : truthOf ev sub env t = x := by
  unfold truthOf
  rw [h]
  show (x >>= fun b => pure (b.map Value.boolean)) >>= _ = x
  rw [bind_assoc]
  conv_rhs => rw [← bind_pure x]
  refine bind_congr fun b => ?_
  rcases b with _ | _ | _ <;> rfl

theorem truthOf_bracketed (t : Phrase) :
    truthOf ev sub env (bracketed t) = truthOf ev sub env t := by
  unfold bracketed
  split
  · rfl
  · unfold truthOf build
    rw [value_enclosing (by simp)]

theorem combine_true {rest : Traced (Option Bool)} {b : Option Bool} :
    (combine false rest b).outcome = .ok (some true) ↔
      b = some true ∧ rest.outcome = .ok (some true) := by
  rcases b with _ | _ | _
  · simp only [combine, reduceCtorEq, false_and, iff_false]
    intro h
    obtain ⟨c, -, hc⟩ := Traced.outcome_bind_eq_ok.mp h
    split at hc <;> cases hc
  · simp [combine]
  · simp [combine]

theorem allHold_eq_true {ts : List Phrase} :
    (allHold ev sub env ts).outcome = .ok (some true) ↔
      ∀ t ∈ ts, (truthOf ev sub env t).outcome = .ok (some true) := by
  induction ts with
  | nil => simp [allHold]
  | cons t ts ih =>
      rw [allHold_cons, Traced.outcome_bind_eq_ok, List.forall_mem_cons, ← ih]
      constructor
      · rintro ⟨b, hb, h⟩
        obtain ⟨rfl, hrest⟩ := combine_true.mp h
        exact ⟨hb, hrest⟩
      · rintro ⟨hb, hrest⟩
        exact ⟨some true, hb, combine_true.mpr ⟨rfl, hrest⟩⟩

theorem exists_of_anyHolds {ts : List Phrase}
    (h : (anyHolds ev sub env ts).outcome = .ok (some true)) :
    ∃ t ∈ ts, (truthOf ev sub env t).outcome = .ok (some true) := by
  induction ts with
  | nil => cases h
  | cons t ts ih =>
      rw [anyHolds_cons] at h
      obtain ⟨b, hb, h⟩ := Traced.outcome_bind_eq_ok.mp h
      have hlater : (anyHolds ev sub env ts).outcome = .ok (some true) →
          ∃ u ∈ t :: ts, (truthOf ev sub env u).outcome = .ok (some true) := by
        intro hrest
        obtain ⟨u, hu, hholds⟩ := ih hrest
        exact ⟨u, List.mem_cons_of_mem t hu, hholds⟩
      rcases b with _ | _ | _
      · obtain ⟨c, hc, h⟩ := Traced.outcome_bind_eq_ok.mp h
        split at h
        · rename_i hct
          exact hlater (hct ▸ hc)
        · cases h
      · exact hlater h
      · exact ⟨t, by simp, hb⟩

theorem allHold_holdsOrFails {ts : List Phrase}
    (h : ∀ t ∈ ts, HoldsOrFails (truthOf ev sub env t)) :
    HoldsOrFails (allHold ev sub env ts) := by
  induction ts with
  | nil =>
      intro b hb
      exact (Except.ok.inj hb).symm
  | cons t ts ih =>
      obtain ⟨ht, hts⟩ := List.forall_mem_cons.mp h
      intro b hb
      rw [allHold_cons] at hb
      obtain ⟨first, hfirst, hb⟩ := Traced.outcome_bind_eq_ok.mp hb
      obtain rfl := ht first hfirst
      exact ih hts b hb

theorem anyHolds_holdsOrFails {ts : List Phrase}
    (h : ∃ t ∈ ts, HoldsOrFails (truthOf ev sub env t)) :
    HoldsOrFails (anyHolds ev sub env ts) := by
  induction ts with
  | nil => simp at h
  | cons t ts ih =>
      intro b hb
      rw [anyHolds_cons] at hb
      obtain ⟨first, hfirst, hb⟩ := Traced.outcome_bind_eq_ok.mp hb
      obtain ⟨u, hu, hholds⟩ := h
      rcases List.mem_cons.mp hu with rfl | hu
      · obtain rfl := hholds first hfirst
        cases hb
        rfl
      · have hrest := ih ⟨u, hu, hholds⟩
        rcases first with _ | _ | _
        · obtain ⟨c, hc, hb⟩ := Traced.outcome_bind_eq_ok.mp hb
          obtain rfl := hrest c hc
          cases hb
          rfl
        · exact hrest b hb
        · cases hb
          rfl

/-- All operands of a conjunction that holds hold. -/
theorem conjunction_eq_true {ts : List Phrase} (hts : ts ≠ [])
    (h : (truthOf ev sub env (conjunction ts)).outcome = .ok (some true)) :
    ∀ t ∈ ts, (truthOf ev sub env t).outcome = .ok (some true) := by
  unfold conjunction joined at h
  split at h
  · simpa using h
  · rw [build, truthOf_ofTruth (value_and hts _)] at h
    exact allHold_eq_true.mp h

theorem exists_of_disjunction {ts : List Phrase} (hts : ts ≠ [])
    (h : (truthOf ev sub env (disjunction ts)).outcome = .ok (some true)) :
    ∃ t ∈ ts, (truthOf ev sub env t).outcome = .ok (some true) := by
  unfold disjunction joined at h
  split at h
  · simpa using h
  · rw [build, truthOf_ofTruth (value_or hts _)] at h
    exact exists_of_anyHolds h

theorem conjunction_holdsOrFails {ts : List Phrase} (hts : ts ≠ [])
    (h : ∀ t ∈ ts, HoldsOrFails (truthOf ev sub env t)) :
    HoldsOrFails (truthOf ev sub env (conjunction ts)) := by
  unfold conjunction joined
  split
  · exact h _ (by simp)
  · intro b hb
    rw [build, truthOf_ofTruth (value_and hts _)] at hb
    exact allHold_holdsOrFails h b hb

theorem disjunction_holdsOrFails {ts : List Phrase} (hts : ts ≠ [])
    (h : ∃ t ∈ ts, HoldsOrFails (truthOf ev sub env t)) :
    HoldsOrFails (truthOf ev sub env (disjunction ts)) := by
  unfold disjunction joined
  split
  · simpa using h
  · intro b hb
    rw [build, truthOf_ofTruth (value_or hts _)] at hb
    exact anyHolds_holdsOrFails h b hb

/-- A restriction holds only if one of its conditions does. -/
theorem exists_of_anyOf {cs : List Phrase} (hcs : cs ≠ [])
    (h : (truthOf ev sub env (anyOf cs)).outcome = .ok (some true)) :
    ∃ t ∈ cs, (truthOf ev sub env t).outcome = .ok (some true) := by
  unfold anyOf at h
  rw [truthOf_bracketed] at h
  obtain ⟨u, hu, hholds⟩ := exists_of_disjunction (by simpa using hcs) h
  obtain ⟨t, ht, rfl⟩ := List.mem_map.mp hu
  exact ⟨t, ht, by rwa [truthOf_bracketed] at hholds⟩

theorem anyOf_holdsOrFails {cs : List Phrase}
    (h : ∃ t ∈ cs, HoldsOrFails (truthOf ev sub env t)) :
    HoldsOrFails (truthOf ev sub env (anyOf cs)) := by
  obtain ⟨t, ht, hholds⟩ := h
  unfold anyOf
  rw [truthOf_bracketed]
  refine disjunction_holdsOrFails (List.ne_nil_of_mem (List.mem_map_of_mem ht))
    ⟨bracketed t, List.mem_map_of_mem ht, ?_⟩
  rwa [truthOf_bracketed]

end Expression

end RowGuard
