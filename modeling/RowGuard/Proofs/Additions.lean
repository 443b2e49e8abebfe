import RowGuard.Proofs.Policies
import RowGuard.Proofs.Selections

/-!
# Further rules

Rules only grant.  Texts that are laid down behind others leave the rules of these as
they are: every text keeps its position, so which classes a text covers does not
change, and the rules for a class or a type are those from before with some more
behind them.  What was granted before the further rules are asked is still granted.
-/

namespace RowGuard

open Query (AccessKind Phrase Statement)

namespace Policy

/-- The second policy goes on behind the rules of the first one, with other texts. -/
def Precedes (policy more : Policy) : Prop :=
  ∃ further, more.rules = policy.rules ++ further ∧
    ∀ r ∈ policy.rules, ∀ g ∈ further, g.position ≠ r.position

/-! ## Positions -/

section Texts

variable {m : Mapping} {position : Nat} {texts further : List String} {rules all : List AccessRule}

/-- Texts that are read behind others are read from the position after these. -/
theorem exists_of_textsFrom_append (h : textsFrom m position (texts ++ further) = .ok all) :
    ∃ rules others, textsFrom m position texts = .ok rules ∧
      textsFrom m (position + texts.length) further = .ok others ∧ all = rules ++ others := by
  induction texts generalizing position all with
  | nil => exact ⟨[], all, rfl, h, rfl⟩
  | cons text texts ih =>
      obtain ⟨first, hfirst, h⟩ := Query.Scope.ok_of_bind h
      obtain ⟨rest, hrest, h⟩ := Query.Scope.ok_of_bind h
      cases h
      obtain ⟨rules, others, hrules, hothers, rfl⟩ := ih hrest
      have hlength : position + (text :: texts).length = position + 1 + texts.length := by
        rw [List.length_cons, Nat.add_right_comm, Nat.add_assoc]
      refine ⟨first ++ rules, others, ?_, ?_, (List.append_assoc first rules others).symm⟩
      · rw [textsFrom, hfirst, hrules]
        rfl
      · rw [hlength]
        exact hothers

theorem position_lt_of_textsFrom (h : textsFrom m position texts = .ok rules) :
    ∀ r ∈ rules, r.position < position + texts.length := by
  induction texts generalizing position rules with
  | nil =>
      cases h
      simp
  | cons text texts ih =>
      obtain ⟨first, hfirst, h⟩ := Query.Scope.ok_of_bind h
      obtain ⟨others, hothers, h⟩ := Query.Scope.ok_of_bind h
      cases h
      obtain ⟨said, -, -, hread⟩ := AccessRule.says_of_ofText hfirst
      intro r hr
      rw [List.length_cons]
      rcases List.mem_append.mp hr with hr | hr
      · have hposition : r.position = position := (hread r hr).1
        omega
      · have hlater := ih hothers r hr
        omega

theorem precedes_of_ofTexts {policy more : Policy} (h : ofTexts m texts = .ok policy)
    (hmore : ofTexts m (texts ++ further) = .ok more) : policy.Precedes more := by
  obtain ⟨rules, hrules, h⟩ := Query.Scope.ok_of_bind h
  obtain ⟨all, hall, hmore⟩ := Query.Scope.ok_of_bind hmore
  cases h
  cases hmore
  obtain ⟨same, others, hsame, hothers, rfl⟩ := exists_of_textsFrom_append hall
  obtain rfl : rules = same := Except.ok.inj (hrules.symm.trans hsame)
  obtain ⟨-, -, hlater⟩ := says_of_textsFrom hothers
  refine ⟨others, rfl, fun r hr g hg => ?_⟩
  have hbefore := position_lt_of_textsFrom hrules r hr
  have hbehind := hlater g hg
  omega

end Texts

/-! ## The rules for a class or a type -/

section Rules

variable {policy more : Policy} {kind : AccessKind}

theorem Precedes.rulesFor (h : policy.Precedes more) (entity : String) :
    policy.rulesFor entity kind <+: more.rulesFor entity kind := by
  obtain ⟨further, hrules, -⟩ := h
  exact List.IsPrefix.filter _ ⟨further, hrules.symm⟩

/-- A text that goes before the further ones covers what it covered before. -/
theorem Precedes.covers (h : policy.Precedes more) {r : AccessRule} (hr : r ∈ policy.rules)
    (entity : String) : more.covers kind r entity = policy.covers kind r entity := by
  obtain ⟨further, hrules, hother⟩ := h
  have hnone : ∀ g ∈ further.filter fun g => g.entityName == entity && g.grants kind,
      ¬(g.position == r.position) = true := by
    intro g hg
    rw [beq_iff_eq]
    exact hother r hr g (List.mem_of_mem_filter hg)
  calc more.covers kind r entity
      = (policy.covers kind r entity ||
          (further.filter fun g => g.entityName == entity && g.grants kind).any
            fun g => g.position == r.position) := by
        rw [Policy.covers, Policy.rulesFor, hrules, List.filter_append, List.any_append]
        rfl
    _ = policy.covers kind r entity := by rw [List.any_eq_false.mpr hnone, Bool.or_false]

theorem firstOfText_prefix {rules all : List AccessRule} (h : rules <+: all) (seen : List Nat) :
    firstOfText seen rules <+: firstOfText seen all := by
  obtain ⟨further, rfl⟩ := h
  induction rules generalizing seen with
  | nil => exact List.nil_prefix
  | cons r rules ih =>
      rw [List.cons_append, firstOfText, firstOfText]
      split
      · exact ih seen
      · exact List.cons_prefix_cons.mpr ⟨rfl, ih (r.position :: seen)⟩

theorem Precedes.rulesForType (h : policy.Precedes more) (m : Mapping) (type : String) :
    policy.rulesForType m type kind <+: more.rulesForType m type kind := by
  unfold Policy.rulesForType
  cases (m.concreteClasses type).map EntityClass.name with
  | nil => exact h.rulesFor type
  | cons first others =>
      apply firstOfText_prefix
      have hcovers : (policy.rulesFor first kind).filter (fun r => others.all (more.covers kind r)) =
          (policy.rulesFor first kind).filter fun r => others.all (policy.covers kind r) := by
        apply List.filter_congr
        intro r hr
        have hsame : more.covers kind r = policy.covers kind r :=
          funext (h.covers (mem_rules_of_rulesFor hr))
        rw [hsame]
      rw [← hcovers]
      exact (h.rulesFor first).filter _

end Rules

end Policy

/-! ## What is granted -/

namespace Restriction

variable {ev : Evaluator} {policy more : Policy} {kind : AccessKind} {c : SecurityContext}
  {now : Timestamp}

theorem askRules_of_prefix {object : ObjectId} {rules all : List AccessRule} (h : rules <+: all)
    (hgranted : (askRules ev c now object rules).outcome = .ok true) :
    (askRules ev c now object all).outcome = .ok true := by
  obtain ⟨further, rfl⟩ := h
  induction rules with
  | nil => cases hgranted
  | cons r rules ih =>
      rw [List.cons_append, askRules]
      rw [askRules] at hgranted
      split at hgranted
      · rfl
      · simp only at hgranted ⊢
        split at hgranted
        · cases hgranted
        · rfl
        · exact ih hgranted

/-- A query that gave something still does. -/
theorem text?_ne_none_of_precedes (h : policy.Precedes more) {s : Statement}
    {result wider : RestrictedQuery}
    (hresult : (restrict ev policy s kind c now).outcome = .ok result)
    (hwider : (restrict ev more s kind c now).outcome = .ok wider)
    (htext : result.text? ≠ none) : wider.text? ≠ none := by
  rw [ne_eq, text?_eq_none_iff hwider]
  rintro ⟨p, hp, hdenied⟩
  apply htext
  rw [text?_eq_none_iff hresult]
  exact ⟨p, hp, fun r hr => hdenied r ((h.rulesForType ev.mapping p.2).subset hr)⟩

end Restriction

end RowGuard
