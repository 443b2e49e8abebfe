import RowGuard.Proofs.Policies
import RowGuard.Proofs.Rows

/-!
# Restricted queries give accessible rows only

A row that meets the condition of a restricted query meets the query's own
condition and, for each path, the condition of some rule.  What meets the
condition of a rule in the query meets it as an object, so no object that a row
gives is one that the rules refuse.

This asks three things of the rules.  Their aliases can be kept apart from those
of the query, their roles are single values, and it makes no difference that a
membership in no roles is taken for false.  And the objects on the way must be
what the mapping tells of them.
-/

namespace RowGuard

open Query (AccessKind Phrase Statement)
open Query.Phrase

namespace Restriction

variable {ev : Evaluator} {policy : Policy} {kind : AccessKind} {c : SecurityContext}
  {now : Timestamp}

/-! ## What a restriction writes -/

/-- The statement whose text a restricted query has, if it has any. -/
def rewritten (ev : Evaluator) (policy : Policy) (s : Statement) (kind : AccessKind)
    (c : SecurityContext) (now : Timestamp) : Traced (Option Phrase) := do
  let (found?, _) ← (restrictions ev policy (effectiveKind s kind) c now (declaredAnywhere s)
    (objectPaths ev.mapping s)).run { taken := s.parameters }
  return found?.map (addRestrictions s)

theorem exists_rewritten {s : Statement} {result : RestrictedQuery}
    (hresult : (restrict ev policy s kind c now).outcome = .ok result)
    (htext : result.text? ≠ none) :
    ∃ found final, Restricted ev policy (effectiveKind s kind) c now (declaredAnywhere s)
        (objectPaths ev.mapping s) { taken := s.parameters } found final ∧
      (rewritten ev policy s kind c now).outcome = .ok (some (addRestrictions s found)) ∧
      result.text? = some (addRestrictions s found).render ∧
      result.parameters = final.values := by
  rw [outcome_restrict] at hresult
  split at hresult
  · cases hresult
  · cases hresult
    exact absurd rfl htext
  · rename_i found final hsome
    cases hresult
    refine ⟨found, final, restrictions_eq_some hsome, ?_, rfl, rfl⟩
    show (restrictions ev policy (effectiveKind s kind) c now (declaredAnywhere s)
      (objectPaths ev.mapping s) { taken := s.parameters } >>= _).outcome = _
    rw [Traced.bind_of_ok hsome]
    rfl

section Query

variable {texts : List String} {source : String} {t : Phrase} {s : Statement}

theorem sound_of_mem_rules (hpolicy : Policy.ofTexts ev.mapping texts = .ok policy)
    {r : AccessRule} (hr : r ∈ policy.rules) {condition : Phrase}
    (hcondition : r.condition? = some condition) : Query.Grammar.Sound condition := by
  obtain ⟨said, hsaid⟩ := Policy.says_of_ofTexts hpolicy
  exact Query.Grammar.sound_of_within ((hsaid.within hr).2 condition hcondition)

/-- Everything that a restriction asks for is made of the rules for one of the paths, and
its parameters are none of the query's own. -/
theorem Restricted.becomes (hpolicy : Policy.ofTexts ev.mapping texts = .ok policy)
    (ht : Phrase.ofText source = .ok t)
    (hs : Statement.ofPhrase (some ev.mapping.model) t = .ok s) (hkind : s.kind = .select)
    {found : List Phrase} {final : ContextParameters}
    (h : Restricted ev policy kind c now (declaredAnywhere s) (objectPaths ev.mapping s)
      { taken := s.parameters } found final) :
    Faithful c s.parameters final ∧
      (∀ p ∈ objectPaths ev.mapping s,
        (∃ r ∈ policy.rulesForType ev.mapping p.2 kind,
          (verdict ev c now r).outcome = .ok .granted) ∨
        ∃ u ∈ found, ∃ cs, Asks ev c now (policy.rulesForType ev.mapping p.2 kind)
          (fun r => Becomes c (declaredAnywhere s) p.1 r final.values) u cs) ∧
      ∀ u ∈ found, ∃ p ∈ objectPaths ev.mapping s, ∃ cs, Asks ev c now
        (policy.rulesForType ev.mapping p.2 kind)
        (fun r => Becomes c (declaredAnywhere s) p.1 r final.values) u cs := by
  have hbinds : ∀ p ∈ objectPaths ev.mapping s, ∀ r ∈ policy.rulesForType ev.mapping p.2 kind,
      Binds c s.parameters (instantiate c (declaredAnywhere s) p.1 r)
        (Becomes c (declaredAnywhere s) p.1 r) := by
    intro p hp r hr
    obtain ⟨hwords, hroot⟩ := words_of_mem_objectPaths ht hs hkind hp
    apply binds_instantiate hwords (List.mem_append_left _ hroot)
    intro condition hcondition
    exact sound_of_mem_rules hpolicy (Policy.covers_of_mem_rulesForType hr).1 hcondition
  obtain ⟨hfaithful, -, hall⟩ := h.binds hbinds (faithful_start c s.parameters)
  exact ⟨hfaithful, hall final.values (Bindings.Extends.refl _)⟩

/-! ## One rule for one object -/

variable {row user values : Bindings Value} {positional : List (Nat × Value)}
  {path : String} {e : ObjectId} {r : AccessRule} {condition u : Phrase}

/-- What the mapping tells of the objects on a path of a row is so. -/
def TypedPath (ev : Evaluator) (row : Bindings Value) (path : String) (e : ObjectId) : Prop :=
  ∀ source, Bindings.find? (Bindings.ofList row) (Text.Dotted.first path) = some (.entity source) →
    TypedAlong ev source e (Text.Dotted.others path)

/-- For a row, what a rule has become says what the rule says of the object, whatever
nesting is left on both sides. -/
theorem Becomes.agree (hsimple : ev.strategies = [.simple])
    (h : Becomes c (declaredAnywhere s) path r values u)
    (hcondition : r.condition? = some condition) (hbindable : isUnbindable c condition = false)
    (htransfers : Transfers c (declaredAnywhere s) r condition)
    (hheld : ∀ name v, values.find? name = some v → user.find? name = some v)
    (hwords : ∀ w ∈ Text.Dotted.parts path, IsWord w)
    {own : Bindings Value} (hvalue : (ev.value (.ofRow row own positional now)
      (ofDotted path)).run.outcome = .ok (some (.entity e)))
    (htyped : TypedPath ev row path e) {m n : Nat} (hm : (settle c condition).depth ≤ m)
    (hn : u.depth ≤ n) :
    Traced.Agree True Eq
      (ev.truthAt m ((ruleEnvironment c now).bindAlias r.subject (.entity e)) (settle c condition))
      (ev.truthAt n (.ofRow row user positional now) u) := by
  obtain ⟨source, hsource, hleads⟩ := exists_source hwords hvalue
  rcases h condition hcondition with ⟨hunbindable, -⟩ | ⟨-, hcorresponds⟩
  · rw [hbindable] at hunbindable
    cases hunbindable
  · obtain ⟨i, j, hcorresponds⟩ := hcorresponds htransfers
    exact Evaluator.truthAt_agree (by simp [hsimple])
      (agree_placing hheld hsource hleads (htyped source hsource)) hcorresponds hm hn

/-- What it takes for the rules that a restriction leaves to say of an object what they
say of it as it stands in a row. -/
structure Preserved (ev : Evaluator) (c : SecurityContext) (now : Timestamp)
    (taken : List String) (rules : List AccessRule) (e : ObjectId) : Prop where
  transfers : ∀ r ∈ rules, (verdict ev c now r).outcome = .ok .depends →
    ∀ condition, r.condition? = some condition → isUnbindable c condition = false →
      Transfers c taken r condition
  /-- Taking memberships in no roles for false makes no rule hold. -/
  settles : c.roles = [] → ∀ r ∈ rules, (verdict ev c now r).outcome = .ok .depends →
    ∀ condition, r.condition? = some condition →
      Expression.HoldsOrFails (ev.truthAt condition.depth
        ((ruleEnvironment c now).bindAlias r.subject (.entity e)) (settle c condition)) →
          Expression.HoldsOrFails (truthFor ev c now e r.subject condition)

theorem Preserved.holdsOrFails {taken : List String} {rules : List AccessRule}
    (h : Preserved ev c now taken rules e) (hr : r ∈ rules)
    (hverdict : (verdict ev c now r).outcome = .ok .depends)
    (hcondition : r.condition? = some condition)
    (hsettled : Expression.HoldsOrFails (ev.truthAt condition.depth
      ((ruleEnvironment c now).bindAlias r.subject (.entity e)) (settle c condition))) :
    Expression.HoldsOrFails (truthFor ev c now e r.subject condition) := by
  by_cases hroles : c.roles = []
  · exact h.settles hroles r hr hverdict condition hcondition hsettled
  · rw [settle_of_roles (by simpa using hroles)] at hsettled
    rwa [truthFor, Evaluator.truth_eq]

/-- A row for which one of the conditions for a path holds gives no object there that all
rules refuse. -/
theorem Asks.holdsOrFails (hsimple : ev.strategies = [.simple]) {rules : List AccessRule}
    {cs : List Phrase}
    (h : Asks ev c now rules (fun r => Becomes c (declaredAnywhere s) path r values) u cs)
    (hpreserved : Preserved ev c now (declaredAnywhere s) rules e)
    (hheld : ∀ name v, values.find? name = some v → user.find? name = some v)
    (hwords : ∀ w ∈ Text.Dotted.parts path, IsWord w)
    {own : Bindings Value} (hvalue : (ev.value (.ofRow row own positional now)
      (ofDotted path)).run.outcome = .ok (some (.entity e)))
    (htyped : TypedPath ev row path e) {n : Nat} (hn : u.depth ≤ n)
    (htrue : (ev.truthAt n (.ofRow row user positional now) u).outcome = .ok (some true)) :
    ∃ r ∈ rules, ∀ condition, r.condition? = some condition →
      Expression.HoldsOrFails (truthFor ev c now e r.subject condition) := by
  obtain ⟨rfl, hne, hmade, -⟩ := h
  obtain ⟨v, hv, hholds⟩ := Expression.exists_of_anyOf hne htrue
  obtain ⟨r, hr, hverdict, hbecomes⟩ := hmade v hv
  refine ⟨r, hr, fun condition hcondition => ?_⟩
  cases hbindable : isUnbindable c condition with
  | true =>
      rcases hbecomes condition hcondition with ⟨-, rfl⟩ | ⟨hbound, -⟩
      · unfold Expression.truthOf at hholds
        rw [Expression.value_alwaysFalse] at hholds
        cases hholds
      · cases hbindable.symm.trans hbound
  | false =>
      have hagree := hbecomes.agree hsimple hcondition hbindable
        (hpreserved.transfers r hr hverdict condition hcondition hbindable) hheld hwords hvalue
        htyped (depth_settle_le condition) (Nat.le_trans (depth_le_anyOf hv) hn)
      exact hpreserved.holdsOrFails hr hverdict hcondition (hagree.holdsOrFails_left hholds)

/-! ## Rows -/

/-- A row that meets the condition of a restricted query meets the query's own, and the
rules do not refuse any object that a restricted path leads to, provided that they
are preserved on their way into the query. -/
theorem restricted_rows_are_accessible (hsimple : ev.strategies = [.simple])
    (hpolicy : Policy.ofTexts ev.mapping texts = .ok policy) (ht : Phrase.ofText source = .ok t)
    (hs : Statement.ofPhrase (some ev.mapping.model) t = .ok s) (hkind : s.kind = .select)
    {result : RestrictedQuery} (hresult : (restrict ev policy s kind c now).outcome = .ok result)
    (htext : result.text? ≠ none) :
    ∃ w, (rewritten ev policy s kind c now).outcome = .ok (some w) ∧
      result.text? = some w.render ∧
      ∀ (row user : Bindings Value) (positional : List (Nat × Value)),
        (ev.truthOf? (.ofRow row (user.bindAll result.parameters) positional now)
          w.conditionOf?).outcome = .ok (some true) →
        (ev.truthOf? (.ofRow row user positional now) s.condition?).outcome = .ok (some true) ∧
        ∀ path type e, (path, type) ∈ objectPaths ev.mapping s →
          (ev.value (.ofRow row user positional now) (ofDotted path)).run.outcome =
            .ok (some (.entity e)) →
          (∃ k ∈ ev.mapping.concreteClasses type, k.name = ev.world.typeOf e) →
          TypedPath ev row path e →
          Preserved ev c now (declaredAnywhere s) (policy.rulesForType ev.mapping type kind) e →
            (askRules ev c now e (policy.rulesFor (ev.world.typeOf e) kind)).outcome ≠
              .ok false := by
  obtain ⟨found, final, hrestricted, hrewritten, hrendered, hparameters⟩ :=
    exists_rewritten hresult htext
  rw [effectiveKind_select hkind] at hrestricted
  obtain ⟨hfaithful, hpaths, -⟩ := hrestricted.becomes hpolicy ht hs hkind
  refine ⟨addRestrictions s found, hrewritten, hrendered, fun row user positional htrue => ?_⟩
  rw [hparameters] at htrue
  obtain ⟨n, hdemands⟩ := truthAt_demands hs htrue
  constructor
  · cases hcondition : s.condition? with
    | none => rfl
    | some condition =>
        obtain ⟨hn, hholds⟩ := hdemands (bracketed condition) (by simp [demands, hcondition])
        unfold Evaluator.truthAt at hholds
        rw [Expression.truthOf_bracketed] at hholds
        rw [depth_bracketed] at hn
        obtain ⟨hwell, hnames⟩ := Statement.wellFormed_condition ht hs hkind hcondition
        have hfresh : ∀ name ∈ s.parameters, name ∉ final.values.names :=
          fun name hname hnew => hfaithful.fresh name hnew hname
        exact ((truth_own hsimple hfresh hwell hnames hn).outcome_eq_ok_iff _).mpr hholds
  · intro path type e hpath hvalue hclass htyped hpreserved
    obtain ⟨said, hsaid⟩ := Policy.says_of_ofTexts hpolicy
    obtain ⟨k, hk, hname⟩ := hclass
    -- A rule for the type stands for one of the class of the object that says the same.
    have hrefused : ∀ r ∈ policy.rulesForType ev.mapping type kind,
        (∀ condition, r.condition? = some condition →
          Expression.HoldsOrFails (truthFor ev c now e r.subject condition)) →
        (askRules ev c now e (policy.rulesFor (ev.world.typeOf e) kind)).outcome ≠ .ok false := by
      intro r hr hholds
      obtain ⟨hmem, hcovers⟩ := Policy.covers_of_mem_rulesForType hr
      obtain ⟨r', hr', hposition⟩ := hcovers k hk
      obtain ⟨hsubject, hsame⟩ :=
        hsaid.agree (Policy.mem_rules_of_rulesFor hr') hmem hposition
      rw [← hname]
      apply not_denied_of_askRules hr'
      intro condition hcondition
      rw [hsubject]
      exact hholds condition (hsame.symm.trans hcondition)
    rcases hpaths (path, type) hpath with ⟨r, hr, hgranted⟩ | ⟨u, hu, cs, hasks⟩
    · apply hrefused r hr
      intro condition hcondition b hb
      exact truth_of_verdict (sound_of_mem_rules hpolicy
        (Policy.covers_of_mem_rulesForType hr).1 hcondition) hcondition rfl hgranted _ hb
    · obtain ⟨hn, hholds⟩ := hdemands u (List.mem_append_right _ hu)
      obtain ⟨hwords, -⟩ := words_of_mem_objectPaths ht hs hkind hpath
      have hheld : ∀ name v, final.values.find? name = some v →
          (user.bindAll final.values).find? name = some v := by
        intro name v hv
        rw [Bindings.find?_bindAll hfaithful.nodup, hv]
        rfl
      obtain ⟨r, hr, hrule⟩ :=
        hasks.holdsOrFails hsimple hpreserved hheld hwords hvalue htyped hn hholds
      exact hrefused r hr hrule

end Query

end Restriction

end RowGuard
