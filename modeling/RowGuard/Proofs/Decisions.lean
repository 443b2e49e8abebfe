import RowGuard.Proofs.Rules
import RowGuard.Restriction.Query

/-!
# Decisions before objects are known

A rule can be decided before its subject is bound.  Whatever an expression is
evaluated to then, binding more aliases leaves it at that or ends in an error,
so a decided rule need not be looked at for any object.
-/

namespace RowGuard

open Query (Label Phrase)
open Query.Phrase
open Restriction

theorem Environment.extends_bindAliases {env : Environment} {more : Bindings Value}
    (hmore : ∀ b ∈ more, env.alias? b.1 = none) : env.Extends (env.bindAliases more) where
  held n hn := by
    refine (Bindings.held_bindAll_of_not_mem env.aliases more fun hmem => hn ?_).symm
    obtain ⟨b, hb, rfl⟩ := List.mem_map.mp hmem
    have hnone := hmore b hb
    rw [alias?_eq_head?] at hnone
    exact List.head?_eq_none_iff.mp hnone
  named := rfl
  positional := rfl
  context := rfl
  now := rfl

/-- A decided truth stays as it is when more aliases are bound. -/
theorem Evaluator.truth_keeps {ev : Evaluator} {env env' : Environment} (h : env.Extends env')
    {t : Phrase} (ht : Query.Grammar.Sound t) :
    Traced.Keeps Settles (ev.truth env t) (ev.truth env' t) := by
  refine Traced.Keeps.bind (value_keeps h ht) fun v v' hv => ?_
  exact fun b b' hb hb' => Expression.settles_truth hv hb hb'

/-- Every node of what a text is read as, in normal form or not, has sound subselects. -/
theorem sound_of_mem_nodes {source : String} {t u : Phrase} (h : Phrase.ofText source = .ok t)
    (hu : u ∈ t.nodes ∨ u ∈ t.normalize.nodes) : Query.Grammar.Sound u := by
  have hsound := (isStatement_of_ofText h).sound
  have hnodes : ∀ {t : Phrase}, Query.Grammar.Sound t → u ∈ t.nodes → Query.Grammar.Sound u :=
    fun ht hu v hv hlabel => ht v (mem_nodes_trans hu hv) hlabel
  rcases hu with hu | hu
  · exact hnodes hsound hu
  · exact hnodes hsound.normalize hu

/-- The verdict over a rule with a condition is its truth in the environment
without the subject. -/
theorem verdict_eq_ok {ev : Evaluator} {c : SecurityContext} {now : Timestamp} {r : AccessRule}
    {condition : Phrase} (hcondition : r.condition? = some condition) {found : Verdict}
    (h : (verdict ev c now r).outcome = .ok found) :
    ∃ b, (ev.truth (ruleEnvironment c now) condition).outcome = .ok b ∧
      found = Verdict.ofTruth b := by
  unfold verdict at h
  rw [hcondition] at h
  obtain ⟨b, hb, hfound⟩ := Traced.outcome_bind_eq_ok.mp h
  exact ⟨b, hb, (Except.ok.inj hfound).symm⟩

/-- What is decided of a rule before its subject is bound is decided for every object. -/
theorem truth_of_verdict {ev : Evaluator} {c : SecurityContext} {now : Timestamp}
    {r : AccessRule} {condition : Phrase} (hsound : Query.Grammar.Sound condition)
    (hcondition : r.condition? = some condition) {decided : Bool} {found : Verdict}
    (hfound : found = Verdict.ofTruth (some decided))
    (h : (verdict ev c now r).outcome = .ok found) (object : Value) {b : Option Bool}
    (hb : (ev.truth ((ruleEnvironment c now).bindAlias r.subject object) condition).outcome =
      .ok b) : b = some decided := by
  obtain ⟨d, hd, heq⟩ := verdict_eq_ok hcondition h
  have hd' : d = some decided := by
    rw [hfound] at heq
    rcases d with _ | _ | _ <;> cases decided <;> first | rfl | cases heq
  subst hd'
  have hextends : (ruleEnvironment c now).Extends
      ((ruleEnvironment c now).bindAliases [(r.subject, object)]) :=
    Environment.extends_bindAliases fun _ _ => rfl
  exact Evaluator.truth_keeps hextends hsound _ _ hd hb decided rfl

/-- Binding more aliases never changes a decided result.  So a rule that grants or
denies before its subject is bound does so, or fails, for every object. -/
theorem decided_under_more_aliases (ev : Evaluator) (m : Mapping) :
    (∀ (source : String) (t : Phrase), Phrase.ofText source = .ok t →
      ∀ u : Phrase, u ∈ t.nodes ∨ u ∈ t.normalize.nodes →
      ∀ (env : Environment) (more : Bindings Value), (∀ b ∈ more, env.alias? b.1 = none) →
      ∀ v : Value, (ev.value env u).run.outcome = .ok (some v) →
        (ev.value (env.bindAliases more) u).run.outcome = .ok (some v) ∨
          ∃ e, (ev.value (env.bindAliases more) u).run.outcome = .error e) ∧
    (∀ (position : Nat) (source : String) (rules : List AccessRule),
      AccessRule.ofText m position source = .ok rules →
      ∀ r ∈ rules, ∀ condition : Phrase, r.condition? = some condition →
      ∀ (c : SecurityContext) (now : Timestamp) (object : Value),
        ((verdict ev c now r).outcome = .ok .granted → ∀ b : Option Bool,
          (ev.truth ((ruleEnvironment c now).bindAlias r.subject object) condition).outcome =
            .ok b → b = some true) ∧
        ((verdict ev c now r).outcome = .ok .denied →
          (ev.truth ((ruleEnvironment c now).bindAlias r.subject object) condition).outcome ≠
            .ok (some true))) := by
  refine ⟨fun source t ht u hu env more hmore v hv => ?_,
    fun position source rules hrules r hr condition hcondition c now object => ?_⟩
  · have hkeeps : Eval.Keeps (ev.value env u) (ev.value (env.bindAliases more) u) :=
      Evaluator.value_keeps (Environment.extends_bindAliases hmore) (sound_of_mem_nodes ht hu)
    cases hafter : (ev.value (env.bindAliases more) u).run.outcome with
    | error e => exact Or.inr ⟨e, rfl⟩
    | ok after => exact Or.inl (congrArg Except.ok (hkeeps _ _ hv hafter v rfl))
  · obtain ⟨said, -, hwithin, hall⟩ := AccessRule.says_of_ofText hrules
    have hsound := Query.Grammar.sound_of_within
      (hwithin condition ((hall r hr).2.1.condition.symm.trans hcondition))
    refine ⟨fun hgranted b hb => truth_of_verdict hsound hcondition rfl hgranted object hb,
      fun hdenied htrue => ?_⟩
    have hfalse : some true = some false :=
      truth_of_verdict hsound hcondition rfl hdenied object htrue
    cases hfalse

/-- A condition with a disjunct that holds anyway, met before its alias is bound. -/
theorem decided_under_more_aliases_or :
    let ev : Evaluator := { world := ⟨[]⟩, mapping := { classes := [{ name := "Document" }] },
                            strategies := [.simple] }
    let source := "GRANT READ ACCESS TO Document d WHERE d = CURRENT_PRINCIPAL OR 1 = 1"
    ∃ rules r condition, AccessRule.ofText ev.mapping 0 source = .ok rules ∧ r ∈ rules ∧
      r.condition? = some condition ∧
      (verdict ev .anonymous default r).outcome = .ok .granted ∧
      ∀ (object : Value) (b : Option Bool),
        (ev.truth ((ruleEnvironment .anonymous default).bindAlias r.subject object)
          condition).outcome = .ok b → b = some true := by
  intro ev source
  have hfound : (AccessRule.ofText ev.mapping 0 source).toOption.any fun rules =>
      rules.any fun r => r.condition?.isSome &&
        (verdict ev .anonymous default r).outcome.toOption.any fun v => v == .granted := by
    decide +kernel
  obtain ⟨rules, hrules, hfound⟩ := Query.Scope.ok_of_any hfound
  obtain ⟨r, hr, hfound⟩ := List.any_eq_true.mp hfound
  obtain ⟨hsome, hfound⟩ := (Bool.and_eq_true _ _).mp hfound
  obtain ⟨condition, hcondition⟩ := Option.isSome_iff_exists.mp hsome
  obtain ⟨v, hverdict, hgranted⟩ := Query.Scope.ok_of_any hfound
  obtain rfl := beq_iff_eq.mp hgranted
  exact ⟨rules, r, condition, hrules, hr, hcondition, hverdict, fun object b =>
    ((decided_under_more_aliases ev ev.mapping).2 0 source rules hrules r hr condition
      hcondition .anonymous default object).1 hverdict b⟩

end RowGuard
