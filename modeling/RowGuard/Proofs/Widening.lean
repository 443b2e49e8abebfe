import RowGuard.Proofs.Additions
import RowGuard.Proofs.Exactness
import RowGuard.Proofs.Parameters
import RowGuard.Proofs.Restatements

/-!
# Further rules widen what is given

Behind the rules that a path had, further ones add operands to the disjunction that is
asked for, or drop it when one of them grants without knowing the object.  The operands
from before stay where they were, with other names for their parameters at most, so a
row that meets one of them is not kept from it: disjunctions are decided by their first
operand that holds, and what stands in front of it is evaluated as before.
-/

namespace RowGuard

open Query (AccessKind Phrase Statement)
open Query.Phrase
open Query.Grammar (Derives)

/-! ## Longer disjunctions -/

namespace Expression

open Restriction (anyOf)

variable {ev : Evaluator} {sub : Phrase → Eval Value} {env : Environment}

theorem combine_decisive {rest : Traced (Option Bool)} {b : Option Bool} :
    (combine true rest b).outcome = .ok (some true) ↔
      b = some true ∨ rest.outcome = .ok (some true) := by
  rcases b with _ | _ | _
  · simp only [combine, reduceCtorEq, false_or]
    rw [Traced.outcome_bind_eq_ok]
    constructor
    · rintro ⟨c, hc, h⟩
      split at h
      · rename_i hct
        exact hct ▸ hc
      · cases h
    · exact fun h => ⟨some true, h, rfl⟩
  · simp [combine]
  · simp [combine]

theorem anyHolds_cons_eq_true {t : Phrase} {ts : List Phrase} :
    (anyHolds ev sub env (t :: ts)).outcome = .ok (some true) ↔
      ∃ b, (truthOf ev sub env t).outcome = .ok b ∧
        (b = some true ∨ (anyHolds ev sub env ts).outcome = .ok (some true)) := by
  rw [anyHolds_cons, Traced.outcome_bind_eq_ok]
  exact exists_congr fun b => and_congr_right fun _ => combine_decisive

theorem anyHolds_bracketed (ts : List Phrase) :
    anyHolds ev sub env (ts.map bracketed) = anyHolds ev sub env ts := by
  induction ts with
  | nil => rfl
  | cons t ts ih => rw [List.map_cons, anyHolds_cons, anyHolds_cons, truthOf_bracketed, ih]

/-- A restriction holds where its conditions, taken in their order, come to one that does. -/
theorem anyOf_eq_true {ts : List Phrase} (hts : ts ≠ []) :
    (truthOf ev sub env (anyOf ts)).outcome = .ok (some true) ↔
      (anyHolds ev sub env ts).outcome = .ok (some true) := by
  rw [anyOf, truthOf_bracketed, disjunction, ← anyHolds_bracketed]
  have hmapped : ts.map bracketed ≠ [] := by simpa using hts
  generalize ts.map bracketed = us at hmapped
  unfold joined
  split
  · have hnone : (anyHolds ev sub env []).outcome = .ok (some false) := rfl
    simp [anyHolds_cons_eq_true, hnone]
  · rw [build, truthOf_ofTruth (value_or hmapped _)]

/-- A disjunction that holds goes on to hold with further operands behind, where those
from before have the truths that they had. -/
theorem anyHolds_of_forall₂ {α : Type} {R S : α → Phrase → Prop} {xs further : List α}
    {ts us : List Phrase} {ev' : Evaluator} {sub' : Phrase → Eval Value} {env' : Environment}
    (hts : List.Forall₂ R xs ts) (hus : List.Forall₂ S (xs ++ further) us)
    (hsame : ∀ x ∈ xs, ∀ t ∈ ts, ∀ u ∈ us, R x t → S x u → ∀ b,
      (truthOf ev sub env t).outcome = .ok b → (truthOf ev' sub' env' u).outcome = .ok b)
    (h : (anyHolds ev sub env ts).outcome = .ok (some true)) :
    (anyHolds ev' sub' env' us).outcome = .ok (some true) := by
  induction hts generalizing us with
  | nil => cases h
  | @cons x t xs ts hx _ ih =>
      cases hus with
      | @cons _ u _ us hx' hus =>
          obtain ⟨b, hb, h⟩ := anyHolds_cons_eq_true.mp h
          rw [anyHolds_cons_eq_true]
          refine ⟨b, hsame x (by simp) t (by simp) u (by simp) hx hx' b hb, h.imp_right ?_⟩
          apply ih hus
          intro y hy v hv w hw
          exact hsame y (List.mem_cons_of_mem x hy) v (List.mem_cons_of_mem t hv) w
            (List.mem_cons_of_mem u hw)

theorem conjunction_of_forall {ts : List Phrase} (hts : ts ≠ [])
    (h : ∀ t ∈ ts, (truthOf ev sub env t).outcome = .ok (some true)) :
    (truthOf ev sub env (conjunction ts)).outcome = .ok (some true) := by
  unfold conjunction joined
  split
  · exact h _ (by simp)
  · rw [build, truthOf_ofTruth (value_and hts _)]
    exact allHold_eq_true.mpr h

end Expression

/-- Where all that a restricted statement asks for holds, its condition does. -/
theorem holds_addRestrictions {model? : Option Query.TypeModel} {t : Phrase} {s : Statement}
    {ev : Evaluator} {env : Environment} {found : List Phrase}
    (hs : Statement.ofPhrase model? t = .ok s)
    (h : ∀ n, ∀ u ∈ Restriction.demands s found, u.depth ≤ n →
      (ev.truthAt n env u).outcome = .ok (some true)) :
    (ev.truthOf? env (Restriction.addRestrictions s found).conditionOf?).outcome =
      .ok (some true) := by
  rw [Restriction.conditionOf?_addRestrictions (Statement.condition?_of_ofPhrase hs)]
  split
  · rename_i hnone
    subst hnone
    cases hcondition : s.condition? with
    | none => rfl
    | some condition =>
        have hone := h condition.depth (bracketed condition) (by simp [Restriction.demands, hcondition])
          (Nat.le_of_eq (depth_bracketed condition))
        rw [Evaluator.truthAt, Expression.truthOf_bracketed] at hone
        rw [Evaluator.truthOf?, Evaluator.truth_eq]
        exact hone
  · rename_i hfound
    have hne : Restriction.demands s found ≠ [] := by simp [Restriction.demands, hfound]
    rw [Evaluator.truthOf?, Evaluator.truth_eq]
    exact Expression.conjunction_of_forall hne fun u hu => h _ u hu (depth_le_joined .and hu)

namespace Restriction

variable {ev : Evaluator} {c : SecurityContext} {now : Timestamp} {taken before : List String}
  {path : String} {rules : List AccessRule} {state final : ContextParameters}

/-! ## What each rule leaves -/

/-- The rules that grant or refuse only once the object is known. -/
def dependent (ev : Evaluator) (c : SecurityContext) (now : Timestamp) (rules : List AccessRule) :
    List AccessRule :=
  rules.filter fun r => (verdict ev c now r).outcome.toOption == some .depends

theorem dependent_cons_of_denied {r : AccessRule}
    (h : (verdict ev c now r).outcome = .ok .denied) :
    dependent ev c now (r :: rules) = dependent ev c now rules := by
  rw [dependent, List.filter_cons_of_neg (by simp [h, Except.toOption])]
  rfl

theorem dependent_cons_of_depends {r : AccessRule}
    (h : (verdict ev c now r).outcome = .ok .depends) :
    dependent ev c now (r :: rules) = r :: dependent ev c now rules := by
  rw [dependent, List.filter_cons_of_pos (by simp [h, Except.toOption])]
  rfl

/-- Conditions that some rules leave for a path: one for each rule that depends on the
object, in the order of the rules. -/
structure Enlists (ev : Evaluator) (c : SecurityContext) (now : Timestamp) (taken : List String)
    (path : String) (rules : List AccessRule) (values : Bindings Value) (cs : List Phrase) :
    Prop where
  undecided : ∀ r ∈ rules, (verdict ev c now r).outcome ≠ .ok .granted
  each : List.Forall₂ (fun r u => Bound c values (placed c taken path r) u)
    (dependent ev c now rules) cs

theorem Instantiated.enlists {cs : List Phrase}
    (h : Instantiated ev c now taken path rules state cs final)
    (hstate : Faithful c before state) :
    Faithful c before final ∧ state.values.Extends final.values ∧
      ∀ values : Bindings Value, final.values.Extends values →
        Enlists ev c now taken path rules values cs := by
  induction h with
  | nil state => exact ⟨hstate, Bindings.Extends.refl _, fun values _ => ⟨by simp, .nil⟩⟩
  | @denied r rest state final cs hverdict _ ih =>
      obtain ⟨hfaithful, hextends, hall⟩ := ih hstate
      refine ⟨hfaithful, hextends, fun values hvalues => ⟨?_, ?_⟩⟩
      · exact List.forall_mem_cons.mpr ⟨by simp [hverdict], (hall values hvalues).undecided⟩
      · rw [dependent_cons_of_denied hverdict]
        exact (hall values hvalues).each
  | @depends r rest state between final t cs hverdict hrun _ ih =>
      have hbinds : Binds c before (instantiate c taken path r) fun values u =>
          Bound c values (placed c taken path r) u :=
        instantiate_eq c taken path r ▸ binds_bound _
      have hstep := hbinds state hstate
      rw [hrun] at hstep
      obtain ⟨hbetween, hextends, hbound⟩ := hstep
      obtain ⟨hfaithful, hextends', hall⟩ := ih hbetween
      refine ⟨hfaithful, hextends.trans hextends', fun values hvalues => ⟨?_, ?_⟩⟩
      · exact List.forall_mem_cons.mpr ⟨by simp [hverdict], (hall values hvalues).undecided⟩
      · rw [dependent_cons_of_depends hverdict]
        exact .cons (hbound values (hextends'.trans hvalues)) (hall values hvalues).each

variable {policy : Policy} {kind : AccessKind} {paths : List (String × String)}

/-- For each path a rule grants access whatever the object is, or else the conditions that
its rules leave are asked for, and nothing else is. -/
theorem Restricted.enlists {found : List Phrase}
    (h : Restricted ev policy kind c now taken paths state found final)
    (hstate : Faithful c before state) :
    Faithful c before final ∧ state.values.Extends final.values ∧
      ∀ values : Bindings Value, final.values.Extends values →
        (∀ p ∈ paths, (∃ r ∈ policy.rulesForType ev.mapping p.2 kind,
            (verdict ev c now r).outcome = .ok .granted) ∨
          ∃ cs, anyOf cs ∈ found ∧ cs ≠ [] ∧ Enlists ev c now taken p.1
            (policy.rulesForType ev.mapping p.2 kind) values cs) ∧
        ∀ u ∈ found, ∃ p ∈ paths, ∃ cs, u = anyOf cs ∧ cs ≠ [] ∧ Enlists ev c now taken p.1
          (policy.rulesForType ev.mapping p.2 kind) values cs := by
  induction h with
  | nil state => exact ⟨hstate, Bindings.Extends.refl _, fun values _ => by simp⟩
  | @granted path type rest state between final found hgranted _ ih =>
      obtain ⟨earlier, r, later, cs, heq, hverdict, hearlier⟩ := hgranted
      obtain ⟨hbetween, hextends, -⟩ := hearlier.enlists hstate
      obtain ⟨hfaithful, hextends', hall⟩ := ih hbetween
      refine ⟨hfaithful, hextends.trans hextends', fun values hvalues => ?_⟩
      obtain ⟨hpaths, hfound⟩ := hall values hvalues
      constructor
      · exact List.forall_mem_cons.mpr ⟨Or.inl ⟨r, by simp [heq], hverdict⟩, hpaths⟩
      · intro u hu
        obtain ⟨p, hp, hlisted⟩ := hfound u hu
        exact ⟨p, List.mem_cons_of_mem _ hp, hlisted⟩
  | @required path type rest state between final cs found hne hmade _ ih =>
      obtain ⟨hbetween, hextends, hlist⟩ := hmade.enlists hstate
      obtain ⟨hfaithful, hextends', hall⟩ := ih hbetween
      refine ⟨hfaithful, hextends.trans hextends', fun values hvalues => ?_⟩
      obtain ⟨hpaths, hfound⟩ := hall values hvalues
      have hfirst := hlist values (hextends'.trans hvalues)
      constructor
      · refine List.forall_mem_cons.mpr ⟨Or.inr ⟨cs, by simp, hne, hfirst⟩, fun p hp => ?_⟩
        refine (hpaths p hp).imp_right ?_
        rintro ⟨ds, hds, hlisted⟩
        exact ⟨ds, List.mem_cons_of_mem _ hds, hlisted⟩
      · refine List.forall_mem_cons.mpr ⟨⟨(path, type), by simp, cs, rfl, hne, hfirst⟩, ?_⟩
        intro u hu
        obtain ⟨p, hp, hlisted⟩ := hfound u hu
        exact ⟨p, List.mem_cons_of_mem _ hp, hlisted⟩

/-! ## Wider restrictions -/

/-- With further rules behind, the conditions for a path hold where they did. -/
theorem Enlists.widens {own : List String} {all : List AccessRule}
    {values values' : Bindings Value} {cs ds : List Phrase} (hstart : rules <+: all)
    (h : Enlists ev c now taken path rules values cs)
    (h' : Enlists ev c now taken path all values' ds)
    (hwell : ∀ r ∈ rules, (placed c taken path r).WellFormed)
    {rows : Evaluator} (hmemory : .persistenceSession ∉ rows.strategies) {env env' : Environment}
    (henv : EnvironmentsAgree False rows (Link.parameters own values values') [] env env')
    {n n' : Nat} (hn : (anyOf cs).depth ≤ n) (hn' : (anyOf ds).depth ≤ n') (hne : cs ≠ [])
    (hne' : ds ≠ []) (hholds : (rows.truthAt n env (anyOf cs)).outcome = .ok (some true)) :
    (rows.truthAt n' env' (anyOf ds)).outcome = .ok (some true) := by
  obtain ⟨further, rfl⟩ := hstart
  have heach := h'.each
  rw [dependent, List.filter_append] at heach
  unfold Evaluator.truthAt at hholds ⊢
  rw [Expression.anyOf_eq_true hne] at hholds
  rw [Expression.anyOf_eq_true hne']
  apply Expression.anyHolds_of_forall₂ h.each heach ?_ hholds
  intro r hr t ht u hu hbound hbound' b hb
  have hcorresponds : Corresponds (Link.parameters own values values') _ _ [] t u :=
    (hwell r (List.mem_of_mem_filter hr)).corresponds_bound hbound hbound' (by simp [Diagonal])
      (Nat.le_refl _)
  have hagree := Evaluator.truthAt_agree (fun hmem => absurd hmem hmemory) henv hcorresponds
    (Nat.le_trans (depth_le_anyOf ht) hn) (Nat.le_trans (depth_le_anyOf hu) hn')
  exact (hagree.outcome_eq_ok_iff b).mp hb

/-- The condition of any statement that is read and checked is derived as one. -/
theorem derives_ownCondition {model? : Option Query.TypeModel} {source : String} {t : Phrase}
    {s : Statement} (ht : Phrase.ofText source = .ok t) (hs : Statement.ofPhrase model? t = .ok s)
    {condition : Phrase} (h : s.condition? = some condition) : Derives .condition condition := by
  obtain ⟨f, clause?, hfill, hclause, hadmits⟩ := (Statement.derivesText ht hs).exists_frame
  rw [Statement.condition?_of_ofPhrase hs, hfill, hadmits.conditionOf? hclause] at h
  obtain ⟨clause, hmem, hhead⟩ := Option.bind_eq_some_iff.mp h
  have hderived := hclause clause hmem
  cases hderived
  cases hhead
  assumption

section Query

variable {more : Policy} {texts further : List String} {source : String} {t : Phrase}
  {s : Statement}

/-- What a restriction asks for holds under further rules where it held without them. -/
theorem Restricted.widens (hpolicy : Policy.ofTexts ev.mapping texts = .ok policy)
    (hprecedes : policy.Precedes more) (ht : Phrase.ofText source = .ok t)
    (hs : Statement.ofPhrase (some ev.mapping.model) t = .ok s) {found found' : List Phrase}
    {final' : ContextParameters}
    (h : Restricted ev policy kind c now (declaredAnywhere s) (objectPaths ev.mapping s)
      { taken := s.parameters } found final)
    (h' : Restricted ev more kind c now (declaredAnywhere s) (objectPaths ev.mapping s)
      { taken := s.parameters } found' final')
    {rows : Evaluator} (hmemory : .persistenceSession ∉ rows.strategies)
    {row user : Bindings Value} {positional : List (Nat × Value)} {later : Timestamp} {n : Nat}
    (hholds : ∀ u ∈ demands s found, u.depth ≤ n ∧
      (rows.truthAt n (.ofRow row (user.bindAll final.values) positional later) u).outcome =
        .ok (some true)) :
    ∀ n', ∀ u ∈ demands s found', u.depth ≤ n' →
      (rows.truthAt n' (.ofRow row (user.bindAll final'.values) positional later) u).outcome =
        .ok (some true) := by
  obtain ⟨hfaithful, -, hall⟩ := h.enlists (faithful_start c s.parameters)
  obtain ⟨hfaithful', -, hall'⟩ := h'.enlists (faithful_start c s.parameters)
  have henv : EnvironmentsAgree False rows (Link.parameters s.parameters final.values final'.values)
      [] (.ofRow row (user.bindAll final.values) positional later)
      (.ofRow row (user.bindAll final'.values) positional later) :=
    agree_parameters (fun name hname hnew => hfaithful.fresh name hnew hname)
      (fun name hname hnew => hfaithful'.fresh name hnew hname) hfaithful.nodup hfaithful'.nodup
  intro n' u hu hn'
  rcases List.mem_append.mp hu with hown | hu
  · -- The query's own condition has parameters of the query only.
    obtain ⟨condition, hcondition, rfl⟩ := Option.map_eq_some_iff.mp (Option.mem_toList.mp hown)
    obtain ⟨hn, htrue⟩ := hholds _ (List.mem_append_left _ hown)
    rw [depth_bracketed] at hn hn'
    rw [Evaluator.truthAt, Expression.truthOf_bracketed] at htrue ⊢
    have hself : Corresponds (Link.parameters s.parameters final.values final'.values)
        condition.depth condition.depth [] condition condition :=
      (derives_ownCondition ht hs hcondition).shapes.corresponds (P := fun _ => True)
        (k := Link.parameters s.parameters final.values final'.values)
        (fun m hm _ => Or.inl ⟨rfl, Statement.mem_parameters_of_condition hs hcondition m hm⟩)
        (by simp [Diagonal]) (fun _ _ => Or.inr ⟨rfl, rfl⟩) (Nat.le_refl _)
    have hagree := Evaluator.truthAt_agree (fun hmem => absurd hmem hmemory) henv hself hn hn'
    exact (hagree.outcome_eq_ok_iff _).mp htrue
  · obtain ⟨p, hp, ds, rfl, hne', hlisted'⟩ :=
      (hall' final'.values (Bindings.Extends.refl _)).2 u hu
    have hstart : policy.rulesForType ev.mapping p.2 kind <+: more.rulesForType ev.mapping p.2 kind :=
      hprecedes.rulesForType ev.mapping p.2
    rcases (hall final.values (Bindings.Extends.refl _)).1 p hp with
      ⟨r, hr, hgranted⟩ | ⟨cs, hcs, hne, hlisted⟩
    · exact absurd hgranted (hlisted'.undecided r (hstart.subset hr))
    · obtain ⟨hn, htrue⟩ := hholds (anyOf cs) (List.mem_append_right _ hcs)
      have hwell : ∀ r ∈ policy.rulesForType ev.mapping p.2 kind,
          (placed c (declaredAnywhere s) p.1 r).WellFormed := fun r hr =>
        wellFormed_placed (derives_objectPath ht hs hp) (derives_ruleCondition hpolicy hr)
      exact hlisted.widens hstart hlisted' hwell hmemory henv hn hn' hne hne' htrue

/-- Grants are additive.  An object that the rules of some texts make accessible is
accessible with further texts behind them.  A query that they let through is let through,
and a row for which the condition of the one restricted statement is true, with its
parameters, is one for which the condition of the other is true, with its own. -/
theorem further_rules_only_widen (hpolicy : Policy.ofTexts ev.mapping texts = .ok policy)
    (hmore : Policy.ofTexts ev.mapping (texts ++ further) = .ok more) :
    (∀ e, (askRules ev c now e (policy.rulesFor (ev.world.typeOf e) kind)).outcome = .ok true →
      (askRules ev c now e (more.rulesFor (ev.world.typeOf e) kind)).outcome = .ok true) ∧
    ∀ source t s result wider, Phrase.ofText source = .ok t →
      Statement.ofPhrase (some ev.mapping.model) t = .ok s →
      (restrict ev policy s kind c now).outcome = .ok result →
      (restrict ev more s kind c now).outcome = .ok wider →
      result.text? ≠ none →
        ∃ w w', (rewritten ev policy s kind c now).outcome = .ok (some w) ∧
          result.text? = some w.render ∧
          (rewritten ev more s kind c now).outcome = .ok (some w') ∧
          wider.text? = some w'.render ∧
          ∀ (rows : Evaluator) (row user : Bindings Value) (positional : List (Nat × Value))
            (later : Timestamp), .persistenceSession ∉ rows.strategies →
            (rows.truthOf? (.ofRow row (user.bindAll result.parameters) positional later)
              w.conditionOf?).outcome = .ok (some true) →
            (rows.truthOf? (.ofRow row (user.bindAll wider.parameters) positional later)
              w'.conditionOf?).outcome = .ok (some true) := by
  have hprecedes := Policy.precedes_of_ofTexts hpolicy hmore
  refine ⟨fun e => askRules_of_prefix (hprecedes.rulesFor _), ?_⟩
  intro source t s result wider ht hs hresult hwider htext
  obtain ⟨found, final, hrestricted, hrewritten, hrendered, hparameters⟩ :=
    exists_rewritten hresult htext
  obtain ⟨found', final', hrestricted', hrewritten', hrendered', hparameters'⟩ :=
    exists_rewritten hwider (text?_ne_none_of_precedes hprecedes hresult hwider htext)
  refine ⟨addRestrictions s found, addRestrictions s found', hrewritten, hrendered, hrewritten',
    hrendered', ?_⟩
  intro rows row user positional later hmemory htrue
  rw [hparameters] at htrue
  rw [hparameters']
  obtain ⟨n, hholds⟩ := truthAt_demands hs htrue
  apply holds_addRestrictions hs
  exact hrestricted.widens hpolicy hprecedes ht hs hrestricted' hmemory hholds

end Query

/-- A document that the staff may read is still read where drafts may be read, too. -/
theorem further_rules_only_widen_staff :
    ∃ policy more t s result wider, ∃ w : Phrase,
      Policy.ofTexts staffEvaluator.mapping
        ["GRANT READ ACCESS TO Document d WHERE d.title IN (CURRENT_ROLES)"] = .ok policy ∧
      Policy.ofTexts staffEvaluator.mapping
        (["GRANT READ ACCESS TO Document d WHERE d.title IN (CURRENT_ROLES)"] ++
          ["GRANT READ ACCESS TO Document d WHERE d.title = 'draft'"]) = .ok more ∧
      (askRules staffEvaluator staffContext default 0 (policy.rulesFor "Document" .read)).outcome =
        .ok true ∧
      (askRules staffEvaluator staffContext default 0 (more.rulesFor "Document" .read)).outcome =
        .ok true ∧
      Phrase.ofText "SELECT x FROM Document x" = .ok t ∧
      Statement.ofPhrase (some staffEvaluator.mapping.model) t = .ok s ∧
      (restrict staffEvaluator policy s .read staffContext default).outcome = .ok result ∧
      (restrict staffEvaluator more s .read staffContext default).outcome = .ok wider ∧
      result.text? ≠ none ∧ wider.text? = some w.render ∧
      (staffEvaluator.truthOf? (staffRow wider.parameters) w.conditionOf?).outcome =
        .ok (some true) := by
  have hfound : (Policy.ofTexts staffEvaluator.mapping
      ["GRANT READ ACCESS TO Document d WHERE d.title IN (CURRENT_ROLES)"]).toOption.any fun policy =>
      (Policy.ofTexts staffEvaluator.mapping
        (["GRANT READ ACCESS TO Document d WHERE d.title IN (CURRENT_ROLES)"] ++
          ["GRANT READ ACCESS TO Document d WHERE d.title = 'draft'"])).toOption.any fun more =>
        (Phrase.ofText "SELECT x FROM Document x").toOption.any fun t =>
          (Statement.ofPhrase (some staffEvaluator.mapping.model) t).toOption.any fun s =>
            (askRules staffEvaluator staffContext default 0
              (policy.rulesFor "Document" .read)).outcome.toOption.any id &&
            (restrict staffEvaluator more s .read staffContext default).outcome.toOption.any
              (fun wider => wider.text?.isSome) &&
            (restrict staffEvaluator policy s .read staffContext default).outcome.toOption.any
              fun result => result.text?.isSome &&
                (rewritten staffEvaluator policy s .read staffContext default).outcome.toOption.any
                  fun w? => w?.any fun w => (staffEvaluator.truthOf? (staffRow result.parameters)
                    w.conditionOf?).outcome.toOption.any fun b => b == some true := by
    decide +kernel
  obtain ⟨policy, hpolicy, hfound⟩ := Query.Scope.ok_of_any hfound
  obtain ⟨more, hmore, hfound⟩ := Query.Scope.ok_of_any hfound
  obtain ⟨t, ht, hfound⟩ := Query.Scope.ok_of_any hfound
  obtain ⟨s, hs, hfound⟩ := Query.Scope.ok_of_any hfound
  simp only [Bool.and_eq_true] at hfound
  obtain ⟨⟨hasked, hwider⟩, hfound⟩ := hfound
  obtain ⟨granted, hgranted, rfl⟩ := Query.Scope.ok_of_any hasked
  obtain ⟨wider, hwider, -⟩ := Query.Scope.ok_of_any hwider
  obtain ⟨result, hresult, hfound⟩ := Query.Scope.ok_of_any hfound
  obtain ⟨hsome, hfound⟩ := (Bool.and_eq_true _ _).mp hfound
  have htext : result.text? ≠ none := by
    intro hnone
    rw [hnone] at hsome
    cases hsome
  obtain ⟨w?, hrewritten, hfound⟩ := Query.Scope.ok_of_any hfound
  obtain ⟨w, rfl, hfound⟩ := (Option.any_eq_true _ _).mp hfound
  obtain ⟨b, hholds, hb⟩ := Query.Scope.ok_of_any hfound
  obtain rfl := beq_iff_eq.mp hb
  obtain ⟨hobjects, hqueries⟩ :=
    @further_rules_only_widen staffEvaluator staffContext default policy .read more _ _ hpolicy hmore
  obtain ⟨w₁, w', hrewritten', -, -, hrendered, hrows⟩ :=
    hqueries _ t s result wider ht hs hresult hwider htext
  obtain rfl := Option.some.inj (Except.ok.inj (hrewritten.symm.trans hrewritten'))
  exact ⟨policy, more, t, s, result, wider, w', hpolicy, hmore, hgranted, hobjects 0 hgranted, ht,
    hs, hresult, hwider, htext, hrendered,
    hrows staffEvaluator [("x", .entity 0)] [] [] default (by decide) hholds⟩

/-- A further rule can spoil the text of a query whose alias is named like a side: what a
row met before is not read any more. -/
theorem widened_query_is_not_read :
    let m : Mapping := { classes := [{ name := "Document", properties := [⟨"title", .basic⟩] }] }
    let ev : Evaluator :=
      { world := ⟨[⟨"Document", none, [("title", .string "a")]⟩]⟩, mapping := m,
        strategies := [.simple] }
    ∃ policy more t s result wider text read, Policy.ofTexts m
        ["GRANT READ ACCESS TO Document d WHERE d.title = 'a'"] = .ok policy ∧
      Policy.ofTexts m (["GRANT READ ACCESS TO Document d WHERE d.title = 'a'"] ++
        ["GRANT READ ACCESS TO Document d WHERE TRIM(d.title) = 'a'"]) = .ok more ∧
      Phrase.ofText "SELECT leading FROM Document leading" = .ok t ∧
      Statement.ofPhrase (some m.model) t = .ok s ∧
      (restrict ev policy s .read .anonymous default).outcome = .ok result ∧
      (restrict ev more s .read .anonymous default).outcome = .ok wider ∧
      result.text? = some text ∧ result.parameters = [] ∧ Phrase.ofText text = .ok read ∧
      (ev.truthOf? (.ofRow [("leading", .entity 0)] [] [] default)
        read.normalize.conditionOf?).outcome = .ok (some true) ∧
      wider.text? = some ("SELECT leading FROM Document leading " ++
        "WHERE ((leading.title = 'a') OR (TRIM(leading.title) = 'a'))") ∧
      ∀ u, Phrase.ofText ("SELECT leading FROM Document leading " ++
        "WHERE ((leading.title = 'a') OR (TRIM(leading.title) = 'a'))") ≠ .ok u := by
  intro m ev
  have hfound : (Policy.ofTexts m
      ["GRANT READ ACCESS TO Document d WHERE d.title = 'a'"]).toOption.any fun policy =>
      (Policy.ofTexts m (["GRANT READ ACCESS TO Document d WHERE d.title = 'a'"] ++
        ["GRANT READ ACCESS TO Document d WHERE TRIM(d.title) = 'a'"])).toOption.any fun more =>
        (Phrase.ofText "SELECT leading FROM Document leading").toOption.any fun t =>
          (Statement.ofPhrase (some m.model) t).toOption.any fun s =>
            (restrict ev more s .read .anonymous default).outcome.toOption.any (fun wider =>
              wider.text? == some ("SELECT leading FROM Document leading " ++
                "WHERE ((leading.title = 'a') OR (TRIM(leading.title) = 'a'))")) &&
            (restrict ev policy s .read .anonymous default).outcome.toOption.any fun result =>
              result.parameters.isEmpty && result.text?.any fun text =>
                (Phrase.ofText text).toOption.any fun read =>
                  (ev.truthOf? (.ofRow [("leading", .entity 0)] [] [] default)
                    read.normalize.conditionOf?).outcome.toOption.any fun b => b == some true := by
    decide +kernel
  obtain ⟨policy, hpolicy, hfound⟩ := Query.Scope.ok_of_any hfound
  obtain ⟨more, hmore, hfound⟩ := Query.Scope.ok_of_any hfound
  obtain ⟨t, ht, hfound⟩ := Query.Scope.ok_of_any hfound
  obtain ⟨s, hs, hfound⟩ := Query.Scope.ok_of_any hfound
  obtain ⟨hwider, hfound⟩ := (Bool.and_eq_true _ _).mp hfound
  obtain ⟨wider, hwider, hspoiled⟩ := Query.Scope.ok_of_any hwider
  obtain ⟨result, hresult, hfound⟩ := Query.Scope.ok_of_any hfound
  obtain ⟨hempty, hfound⟩ := (Bool.and_eq_true _ _).mp hfound
  obtain ⟨text, htext, hfound⟩ := (Option.any_eq_true _ _).mp hfound
  obtain ⟨read, hread, hfound⟩ := Query.Scope.ok_of_any hfound
  obtain ⟨b, hholds, hb⟩ := Query.Scope.ok_of_any hfound
  obtain rfl := beq_iff_eq.mp hb
  have hunread : (Phrase.ofText ("SELECT leading FROM Document leading " ++
      "WHERE ((leading.title = 'a') OR (TRIM(leading.title) = 'a'))")).toOption.isNone := by
    decide +kernel
  refine ⟨policy, more, t, s, result, wider, text, read, hpolicy, hmore, ht, hs, hresult, hwider,
    htext, List.isEmpty_iff.mp hempty, hread, hholds, beq_iff_eq.mp hspoiled, ?_⟩
  intro u hu
  rw [hu] at hunread
  cases hunread

end Restriction

end RowGuard
