import RowGuard.Proofs.Decisions

/-!
# Rules of a policy

All rules that come from one text say the same of their subjects, so a rule that
represents its text speaks for every class that the text covers.
-/

namespace RowGuard

open Query (AccessKind Phrase)
open Query.Phrase

namespace Policy

/-- Whether the rules say, text by text, what has been read. -/
def Says (rules : List AccessRule) (said : Nat → AccessRule.Reading) : Prop :=
  ∀ r ∈ rules, r.Says (said r.position) ∧ IsWord (said r.position).subject ∧
    ∀ t, (said r.position).condition? = some t → Within (· = (said r.position).subject) t

theorem says_of_textsFrom {m : Mapping} {position : Nat} {texts : List String}
    {rules : List AccessRule} (h : textsFrom m position texts = .ok rules) :
    ∃ said, Says rules said ∧ ∀ r ∈ rules, position ≤ r.position := by
  induction texts generalizing position rules with
  | nil =>
      cases h
      exact ⟨fun _ => ⟨[], "", none⟩, by simp [Says], by simp⟩
  | cons text texts ih =>
      obtain ⟨first, hfirst, h⟩ := Query.Scope.ok_of_bind h
      obtain ⟨others, hothers, h⟩ := Query.Scope.ok_of_bind h
      cases h
      obtain ⟨said, hsaid, hlater⟩ := ih hothers
      obtain ⟨read, hword, hwithin, hread⟩ := AccessRule.says_of_ofText hfirst
      refine ⟨fun i => if i = position then read else said i, fun r hr => ?_, fun r hr => ?_⟩
      · rcases List.mem_append.mp hr with hr | hr
        · obtain ⟨hposition, hrule, -⟩ := hread r hr
          simp only [hposition, if_true]
          exact ⟨hrule, hword, hwithin⟩
        · have hne : r.position ≠ position := by
            have hlt := hlater r hr
            omega
          simp only [hne, if_false]
          exact hsaid r hr
      · rcases List.mem_append.mp hr with hr | hr
        · exact Nat.le_of_eq (hread r hr).1.symm
        · exact Nat.le_of_succ_le (hlater r hr)

theorem says_of_ofTexts {m : Mapping} {texts : List String} {policy : Policy}
    (h : ofTexts m texts = .ok policy) : ∃ said, Says policy.rules said := by
  obtain ⟨rules, hrules, h⟩ := Query.Scope.ok_of_bind h
  cases h
  obtain ⟨said, hsaid, -⟩ := says_of_textsFrom hrules
  exact ⟨said, hsaid⟩

/-- Rules of one text have one subject and one condition. -/
theorem Says.agree {rules : List AccessRule} {said : Nat → AccessRule.Reading}
    (h : Says rules said) {r r' : AccessRule} (hr : r ∈ rules) (hr' : r' ∈ rules)
    (hposition : r.position = r'.position) :
    r.subject = r'.subject ∧ r.condition? = r'.condition? := by
  have hrule := (h r hr).1
  have hrule' := (h r' hr').1
  rw [hposition] at hrule
  exact ⟨hrule.subject.trans hrule'.subject.symm, hrule.condition.trans hrule'.condition.symm⟩

/-- The subject of a rule is a word, and its condition names nothing else freely. -/
theorem Says.within {rules : List AccessRule} {said : Nat → AccessRule.Reading}
    (h : Says rules said) {r : AccessRule} (hr : r ∈ rules) :
    IsWord r.subject ∧ ∀ t, r.condition? = some t → Within (· = r.subject) t := by
  obtain ⟨hrule, hword, hwithin⟩ := h r hr
  rw [hrule.subject, hrule.condition]
  exact ⟨hword, hwithin⟩

theorem mem_of_mem_firstOfText {seen : List Nat} {rules : List AccessRule} {r : AccessRule}
    (h : r ∈ firstOfText seen rules) : r ∈ rules := by
  induction rules generalizing seen with
  | nil => cases h
  | cons first rest ih =>
      unfold firstOfText at h
      split at h
      · exact List.mem_cons_of_mem first (ih h)
      · rcases List.mem_cons.mp h with rfl | h
        · simp
        · exact List.mem_cons_of_mem first (ih h)

/-- Every text is represented by one of its rules, unless it has been seen before. -/
theorem exists_mem_firstOfText {seen : List Nat} {rules : List AccessRule} {r : AccessRule}
    (hr : r ∈ rules) :
    r.position ∈ seen ∨ ∃ first ∈ firstOfText seen rules, first.position = r.position := by
  induction rules generalizing seen with
  | nil => cases hr
  | cons first rest ih =>
      by_cases hseen : first.position ∈ seen
      · have hstep : firstOfText seen (first :: rest) = firstOfText seen rest := by
          simp [firstOfText, hseen]
        rw [hstep]
        rcases List.mem_cons.mp hr with rfl | hr
        · exact Or.inl hseen
        · exact ih hr
      · have hstep : firstOfText seen (first :: rest) =
            first :: firstOfText (first.position :: seen) rest := by
          simp [firstOfText, hseen]
        rw [hstep]
        rcases List.mem_cons.mp hr with rfl | hr
        · exact Or.inr ⟨r, by simp, rfl⟩
        · rcases ih hr with hmem | ⟨g, hg, hposition⟩
          · rcases List.mem_cons.mp hmem with heq | hmem
            · exact Or.inr ⟨first, by simp, heq.symm⟩
            · exact Or.inl hmem
          · exact Or.inr ⟨g, List.mem_cons_of_mem first hg, hposition⟩

variable {policy : Policy} {m : Mapping} {type : String} {kind : AccessKind}

theorem mem_rules_of_rulesFor {name : String} {r : AccessRule}
    (h : r ∈ policy.rulesFor name kind) : r ∈ policy.rules := List.mem_of_mem_filter h

/-- A rule for a type belongs to the policy, and its text has a rule for each class
that the objects of the type can have. -/
theorem covers_of_mem_rulesForType {r : AccessRule} (h : r ∈ policy.rulesForType m type kind) :
    r ∈ policy.rules ∧ ∀ c ∈ m.concreteClasses type,
      ∃ r' ∈ policy.rulesFor c.name kind, r'.position = r.position := by
  unfold rulesForType at h
  split at h
  · rename_i hnone
    refine ⟨mem_rules_of_rulesFor h, fun c hc => ?_⟩
    rw [List.map_eq_nil_iff.mp hnone] at hc
    cases hc
  · rename_i first others hnames
    obtain ⟨hr, hcovers⟩ := List.mem_filter.mp (mem_of_mem_firstOfText h)
    refine ⟨mem_rules_of_rulesFor hr, fun c hc => ?_⟩
    have hname : c.name ∈ first :: others := hnames ▸ List.mem_map_of_mem hc
    rcases List.mem_cons.mp hname with heq | hother
    · exact ⟨r, heq ▸ hr, rfl⟩
    · have hcovered := List.all_eq_true.mp hcovers _ hother
      obtain ⟨r', hr', hposition⟩ := List.any_eq_true.mp hcovered
      exact ⟨r', hr', eq_of_beq hposition⟩

/-- Where the objects of a type have one class only, the rules for the type are those
for the class, one for each text. -/
theorem exists_mem_rulesForType {c : EntityClass} (hone : m.concreteClasses type = [c])
    {r : AccessRule} (hr : r ∈ policy.rulesFor c.name kind) :
    ∃ first ∈ policy.rulesForType m type kind, first.position = r.position := by
  unfold rulesForType
  rw [hone]
  simp only [List.map_cons, List.map_nil, List.all_nil, List.filter_true]
  exact (exists_mem_firstOfText hr).resolve_left (by simp)

end Policy

/-! ## Asking -/

namespace Restriction

variable {ev : Evaluator} {c : SecurityContext} {now : Timestamp} {object : ObjectId}

/-- The truth of the condition of a rule for an object. -/
def truthFor (ev : Evaluator) (c : SecurityContext) (now : Timestamp) (object : ObjectId)
    (subject : String) (condition : Phrase) : Traced (Option Bool) :=
  ev.truth ((ruleEnvironment c now).bindAlias subject (.entity object)) condition

/-- Whether a rule grants access to an object. -/
def Grants (ev : Evaluator) (c : SecurityContext) (now : Timestamp) (object : ObjectId)
    (r : AccessRule) : Prop :=
  ∀ condition, r.condition? = some condition →
    (truthFor ev c now object r.subject condition).outcome = .ok (some true)

/-- Access is denied only where every rule says so. -/
theorem not_denied_of_askRules {rules : List AccessRule} {r : AccessRule} (hr : r ∈ rules)
    (h : ∀ condition, r.condition? = some condition → ∀ b,
      (truthFor ev c now object r.subject condition).outcome = .ok b → b = some true) :
    (askRules ev c now object rules).outcome ≠ .ok false := by
  induction rules with
  | nil => cases hr
  | cons first rest ih =>
      rw [askRules]
      split
      · simp
      · rename_i condition hcondition
        simp only
        split
        · simp
        · simp
        · rename_i b hb htruth
          rcases List.mem_cons.mp hr with rfl | hr
          · exact absurd (h condition hcondition _ htruth) hb
          · exact ih hr

/-- Access is granted only if some rule grants it. -/
theorem exists_of_askRules {rules : List AccessRule}
    (h : (askRules ev c now object rules).outcome = .ok true) :
    ∃ r ∈ rules, Grants ev c now object r := by
  induction rules with
  | nil => cases h
  | cons first rest ih =>
      rw [askRules] at h
      split at h
      · rename_i hnone
        exact ⟨first, by simp, fun condition hcondition => by
          rw [hnone] at hcondition
          cases hcondition⟩
      · rename_i condition hcondition
        simp only at h
        split at h
        · cases h
        · rename_i htruth
          refine ⟨first, by simp, fun other hother => ?_⟩
          obtain rfl := Option.some.inj (hcondition.symm.trans hother)
          exact htruth
        · obtain ⟨r, hr, hgrants⟩ := ih h
          exact ⟨r, List.mem_cons_of_mem first hr, hgrants⟩

end Restriction

end RowGuard
