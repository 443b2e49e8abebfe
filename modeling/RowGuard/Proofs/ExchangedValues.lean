import RowGuard.Proofs.Exchanges
import RowGuard.Proofs.Parameters
import RowGuard.Proofs.Restatements

/-!
# Values of exchanged leaves

Where exchanged leaves have the same values, whole expressions have, errors included.
An enumeration goes through the same combinations on both sides: the aliases are bound
in one order to the values of exchanged expressions.

This is how conditions outlive the binding of the context.  Every part of the context
that a condition asks for is held by a parameter, and a membership in the roles by
as many parameters as there are roles.
-/

namespace RowGuard

open Query (Label Phrase Statement)
open Query.Phrase
open Enumeration
open Restriction (Names)
open Outcome (Matches)

/-- Environments that bind the same aliases and give exchanged leaves the same values. -/
structure EnvironmentsExchanged (x : LeafExchange) (env env' : Environment) : Prop where
  aliases : env.aliases = env'.aliases
  leaf : ∀ l m, l.isLeaf → m.isLeaf → x.leaf l m →
    Expression.terminal? env l = Expression.terminal? env' m
  roles : ∀ names, x.roles names → ∃ c, env.context? = some c ∧
    names.map env'.named? = c.roles.map some ∧ ∀ role ∈ c.roles, ∀ items, role ≠ .collection items

section Environments

variable {x : LeafExchange} {env env' : Environment}

theorem EnvironmentsExchanged.withAliases (h : EnvironmentsExchanged x env env')
    (aliases : Bindings Value) :
    EnvironmentsExchanged x { env with aliases } { env' with aliases } where
  aliases := rfl
  leaf l m hl hm hleaf := by
    rw [Expression.terminal?_of_isLeaf hl, Expression.terminal?_of_isLeaf hm]
    exact h.leaf l m hl hm hleaf
  roles := h.roles

theorem EnvironmentsExchanged.bindAliases (h : EnvironmentsExchanged x env env')
    (more : Bindings Value) :
    EnvironmentsExchanged x (env.bindAliases more) (env'.bindAliases more) := by
  unfold Environment.bindAliases
  rw [← h.aliases]
  exact h.withAliases _

theorem EnvironmentsExchanged.unbindAliases (h : EnvironmentsExchanged x env env')
    (names : List String) :
    EnvironmentsExchanged x (env.unbindAliases names) (env'.unbindAliases names) := by
  unfold Environment.unbindAliases
  rw [← h.aliases]
  exact h.withAliases _

theorem EnvironmentsExchanged.scope_eq (h : EnvironmentsExchanged x env env') (w : World) :
    env.scope w = env'.scope w := by
  rw [Environment.scope, Environment.scope, h.aliases]

end Environments

/-! ## Expressions -/

namespace Expression

variable {ev : Evaluator} {sub sub' : Phrase → Eval Value} {env env' : Environment}

mutual

/-- What names something has the value of an alias or of a path from one, or none. -/
theorem value_of_names (haliases : env.aliases = env'.aliases) : ∀ {t : Phrase}, Names t →
    value ev sub env t = value ev sub' env' t
  | .node l cs s, h => by
      have hl : Restriction.isNaming l = true := h _ (mem_nodes_self _)
      cases l with
      | identifier name =>
          rw [value_of_terminal (l := .identifier name) rfl,
            value_of_terminal (l := .identifier name) rfl]
          simp only [Environment.alias?, haliases]
      | path =>
          have hparts : EqualValues ev sub sub' env env' cs cs :=
            values_of_names haliases fun c hc n hn => h n (mem_nodes_of_child hc hn)
          exact path_congr hparts rfl s s
      | fromClause | fromItem | join _ _ | entityName _ | segment _ =>
          rw [value_refused rfl rfl (by simp) (by simp), value_refused rfl rfl (by simp) (by simp)]
      | _ => cases hl

theorem values_of_names (haliases : env.aliases = env'.aliases) : ∀ {ts : List Phrase},
    (∀ t ∈ ts, Names t) → EqualValues ev sub sub' env env' ts ts
  | [], _ => .nil
  | t :: _, h => .cons (value_of_names haliases (h t List.mem_cons_self))
      (values_of_names haliases fun u hu => h u (List.mem_cons_of_mem t hu))

end

end Expression

section Values

variable {x : LeafExchange} {ev : Evaluator} {env env' : Environment}
  {sub sub' : Phrase → Eval Value}

/-- Subselects with exchanged leaves are answered the same. -/
def SubselectsExchanged (x : LeafExchange) (sub sub' : Phrase → Eval Value) : Prop :=
  ∀ t u : Phrase, Exchanged x t u → t.label = .subselect → sub t = sub' u

mutual

/-- Exchanging leaves of the same values keeps the value of the whole. -/
theorem Exchanged.value_eq (henv : EnvironmentsExchanged x env env')
    (hsub : SubselectsExchanged x sub sub') : ∀ {t u : Phrase}, Exchanged x t u →
    Expression.value ev sub env t = Expression.value ev sub' env' u
  | _, _, .names ht => Expression.value_of_names henv.aliases ht
  | _, _, .leaf s s' hl hm hleaf => by
      obtain ⟨outcome, hterminal, -⟩ := @Expression.value_leaf ev _ hl env s
      rw [Expression.value_of_terminal hterminal,
        Expression.value_of_terminal ((henv.leaf _ _ hl hm hleaf).symm.trans hterminal)]
  | _, _, .roles s r h hroles hne => by
      obtain ⟨c, hcontext, hnames, hplain⟩ := henv.roles _ hroles
      refine Expression.isIn_congr (by simp) (by simpa using hne) (h.value_eq henv hsub)
        (fun v hv => ?_) s s
      rw [Expression.anyHas_context hcontext, Expression.anyHas_names hv hnames hplain]
  | _, _, .subselect s h => by
      rw [Expression.value_subselect, Expression.value_subselect]
      exact hsub _ _ (.subselect s h) rfl
  | _, _, .compound s hcompound h =>
      Expression.node_congr hcompound (h.values_eq henv hsub) s s

theorem AllExchanged.values_eq (henv : EnvironmentsExchanged x env env')
    (hsub : SubselectsExchanged x sub sub') : ∀ {ts us : List Phrase}, AllExchanged x ts us →
    Expression.EqualValues ev sub sub' env env' ts us
  | _, _, .nil => .nil
  | _, _, .cons h hs => .cons (h.value_eq henv hsub) (hs.values_eq henv hsub)

end

end Values

/-! ## Enumerations -/

/-- An evaluation that does not tell exchanged leaves from each other. -/
def EvaluatesExchanged (x : LeafExchange) (evaluate : Environment → Phrase → Eval Value) : Prop :=
  ∀ env env' t u, EnvironmentsExchanged x env env' → Exchanged x t u →
    evaluate env t = evaluate env' u

section Enumerations

variable {x : LeafExchange} {ev : Evaluator} {evaluate : Environment → Phrase → Eval Value}
variable {env env' : Environment} {s s' : Statement}

theorem extend_exchanged (hevaluate : EvaluatesExchanged x evaluate)
    (henv : EnvironmentsExchanged x env env') {r r' : Replacement}
    (hr : ReplacementsExchanged x r r') (count : Nat) (variants : List (Bindings Value)) :
    extend ev evaluate env r count variants = extend ev evaluate env' r' count variants := by
  induction variants generalizing count with
  | nil => rfl
  | cons variant rest ih =>
      simp only [extend, ← hr.definition,
        hevaluate _ _ _ _ (henv.bindAliases variant) hr.expression, ih]

theorem variants_exchanged (hevaluate : EvaluatesExchanged x evaluate)
    (henv : EnvironmentsExchanged x env env') {rs rs' : List Replacement}
    (h : List.Forall₂ (ReplacementsExchanged x) rs rs') :
    variants ev evaluate env rs = variants ev evaluate env' rs' := by
  obtain ⟨hordered, hstuck⟩ := arrange_exchanged [] h
  have hfound : ∀ start : List (Bindings Value),
      (arrange [] rs).1.foldlM (fun vs r => extend ev evaluate env r 0 vs) start =
        (arrange [] rs').1.foldlM (fun vs r => extend ev evaluate env' r 0 vs) start := by
    generalize (arrange [] rs).1 = ordered at hordered
    generalize (arrange [] rs').1 = ordered' at hordered
    induction hordered with
    | nil => exact fun _ => rfl
    | cons hr _ ih =>
        intro start
        rw [List.foldlM_cons, List.foldlM_cons, extend_exchanged hevaluate henv hr]
        exact congrArg _ (funext ih)
  have hempty : (arrange [] rs).2.isEmpty = (arrange [] rs').2.isEmpty := by
    generalize (arrange [] rs).2 = stuck at hstuck
    generalize (arrange [] rs').2 = stuck' at hstuck
    cases hstuck <;> rfl
  unfold variants
  simp only [hfound, hempty]

theorem holds_exchanged (hevaluate : EvaluatesExchanged x evaluate)
    (henv : EnvironmentsExchanged x env env') {t u : Phrase} (h : Exchanged x t u) :
    holds ev evaluate env t = holds ev evaluate env' u := by
  rw [holds, holds, hevaluate _ _ _ _ henv h]

theorem isAccepted_exchanged (hevaluate : EvaluatesExchanged x evaluate)
    (henv : EnvironmentsExchanged x env env') {t? u? : Option Phrase}
    (h : Option.Rel (Exchanged x) t? u?) :
    isAccepted ev evaluate env t? = isAccepted ev evaluate env' u? := by
  cases h with
  | none => rfl
  | some h => rw [isAccepted, isAccepted, holds_exchanged hevaluate henv h]

theorem isRefuted_exchanged (hevaluate : EvaluatesExchanged x evaluate)
    (henv : EnvironmentsExchanged x env env') {t? u? : Option Phrase}
    (h : Option.Rel (Exchanged x) t? u?) :
    isRefuted ev evaluate env t? = isRefuted ev evaluate env' u? := by
  cases h with
  | none => rfl
  | some h => rw [isRefuted, isRefuted, holds_exchanged hevaluate henv h]

theorem project_exchanged (hevaluate : EvaluatesExchanged x evaluate)
    (henv : EnvironmentsExchanged x env env') (paths : List String) :
    project evaluate env paths = project evaluate env' paths := by
  induction paths with
  | nil => rfl
  | cons path paths ih =>
      rw [project, project, hevaluate _ _ _ _ henv (.names (names_ofDotted path)), ih]

theorem rows_exchanged (hevaluate : EvaluatesExchanged x evaluate)
    (henv : EnvironmentsExchanged x env env') (h : StatementsExchanged x s s')
    (variants : List (Bindings Value)) :
    rows ev evaluate env s variants = rows ev evaluate env' s' variants := by
  induction variants with
  | nil => rfl
  | cons variant rest ih =>
      have hvariant := henv.bindAliases variant
      rw [rows, rows, ih, isAccepted_exchanged hevaluate hvariant h.condition, h.selectedPaths,
        project_exchanged hevaluate hvariant]

/-- Steps that agree on related results may follow computations that match. -/
theorem Traced.lift_bind_of_matches {α β γ : Type} {R : α → β → Prop} {y : Except Fault α}
    {z : Except Fault β} (h : Matches R y z) {f : α → Traced γ} {g : β → Traced γ}
    (hnext : ∀ a b, R a b → f a = g b) : Traced.lift y >>= f = Traced.lift z >>= g := by
  rcases y with e | a <;> rcases z with e' | b
  · rw [show e = e' from h]
    rfl
  · exact h.elim
  · exact h.elim
  · exact (Traced.pure_bind_eq a f).trans ((hnext a b h).trans (Traced.pure_bind_eq b g).symm)

/-- Subselects with exchanged leaves have the same rows. -/
theorem answer_exchanged (hevaluate : EvaluatesExchanged x evaluate)
    (henv : EnvironmentsExchanged x env env') (h : StatementsExchanged x s s') :
    answer ev evaluate env s = answer ev evaluate env' s' := by
  have haliases : s.aliases = s'.aliases := by
    rw [Statement.aliases, Statement.aliases, h.definitions]
  have houter := henv.unbindAliases s'.aliases
  unfold answer
  rw [haliases, h.aggregates]
  simp only [isRefuted_exchanged hevaluate houter h.condition]
  split
  · rfl
  refine congrArg _ (funext fun refuted => ?_)
  split
  · rfl
  refine Traced.lift_bind_of_matches (replacements_exchanged h) fun rs rs' hrs => ?_
  rw [variants_exchanged hevaluate houter hrs]
  exact congrArg _ (funext fun found => rows_exchanged hevaluate houter h found)

theorem Evaluator.firstDecision_congr {f g : Strategy → Traced (List Value)}
    {strategies : List Strategy} (h : ∀ strategy ∈ strategies, f strategy = g strategy) :
    firstDecision f strategies = firstDecision g strategies := by
  induction strategies with
  | nil => rfl
  | cons strategy rest ih =>
      rw [firstDecision, firstDecision, h strategy List.mem_cons_self,
        ih fun other hother => h other (List.mem_cons_of_mem strategy hother)]

theorem Evaluator.subselect_exchanged (hstrategies : .persistenceSession ∉ ev.strategies)
    (hevaluate : EvaluatesExchanged x evaluate) (henv : EnvironmentsExchanged x env env') :
    SubselectsExchanged x (ev.subselect evaluate env) (ev.subselect evaluate env') := by
  intro t u h hlabel
  have hchecked := ofSubselect_exchanged (some ev.mapping.model) (env.scope ev.world) h hlabel
  unfold subselect
  rw [← henv.scope_eq]
  revert hchecked
  generalize Statement.ofSubselect _ _ t = checked
  generalize Statement.ofSubselect _ _ u = checked'
  rcases checked with e | s <;> rcases checked' with e' | s' <;> intro hchecked
  · rw [show e = e' from hchecked]
  · exact hchecked.elim
  · exact hchecked.elim
  · simp only
    rw [firstDecision_congr (g := answerBy ev evaluate env' s')]
    rintro (_ | _) hstrategy
    · exact answer_exchanged hevaluate henv hchecked
    · exact absurd hstrategy hstrategies

/-- Whatever nesting is left, exchanged leaves make no difference. -/
theorem Evaluator.valueAt_exchanged (hstrategies : .persistenceSession ∉ ev.strategies)
    (depth : Nat) : EvaluatesExchanged x (ev.valueAt depth) := by
  induction depth with
  | zero => exact fun _ _ _ _ henv h => h.value_eq henv fun _ _ _ _ => rfl
  | succ depth ih =>
      exact fun _ _ _ _ henv h => h.value_eq henv (subselect_exchanged hstrategies ih henv)

theorem Evaluator.value_exchanged (hstrategies : .persistenceSession ∉ ev.strategies)
    (henv : EnvironmentsExchanged x env env') {t u : Phrase} (h : Exchanged x t u) :
    ev.value env t = ev.value env' u := by
  rw [Evaluator.value, Evaluator.value, h.depth_eq]
  exact valueAt_exchanged hstrategies u.depth _ _ _ _ henv h

end Enumerations

/-! ## The security context -/

namespace Restriction

open Query.Grammar (Derives)

variable {c : SecurityContext} {values : Bindings Value}

/-- Parameters that hold them for parts of the context. -/
def contextExchange (c : SecurityContext) (values : Bindings Value) : LeafExchange where
  leaf := Stands c values
  roles names := names.map values.find? = c.roles.map some

theorem allExchanged_bound {ts us : List Phrase}
    (h : ∀ t ∈ ts, ∀ u, Bound c values t u → Exchanged (contextExchange c values) t u)
    (hus : BoundAll c values ts us) : AllExchanged (contextExchange c values) ts us :=
  .of_forall₂ (((List.forall₂_and_left ts us).mpr ⟨h, hus.forall₂⟩).imp
    fun _ u ht => ht.1 u ht.2)

end Restriction

section Context

open Restriction

variable {c : SecurityContext} {values : Bindings Value}

/-- Where there are roles, binding the context is but an exchange of leaves. -/
theorem Query.Phrase.Within.exchanged (hroles : c.roles ≠ []) {P : String → Prop} {t u : Phrase}
    (h : Within P t) (hbindable : Bindable c t) (hu : Bound c values t u) :
    Exchanged (contextExchange c values) t u := by
  induction h generalizing u with
  | reference ht _ =>
      rw [hu.eq_of_names ht.names]
      exact .names ht.names
  | @leaf P l s hl =>
      cases l with
      | context item =>
          rw [Bound] at hu
          obtain ⟨name, rfl, hvalue⟩ := hu
          exact .leaf _ _ rfl rfl (.context (by cases item <;> exact hvalue))
      | namedParameter old =>
          rw [Bound] at hu
          obtain ⟨name, rfl, hvalue⟩ := hu
          obtain ⟨v, hv⟩ := (hbindable _ (mem_nodes_self _)).2 old rfl
          exact .leaf _ _ rfl rfl (.named hv (by simpa [Source.value, hv] using hvalue))
      | positionalParameter index => exact absurd rfl ((hbindable _ (mem_nodes_self _)).1 index)
      | clock _ | stringLiteral _ | integerLiteral _ | decimalLiteral _ | booleanLiteral _
      | null =>
          obtain ⟨us, rfl, hus⟩ := (bound_node rfl (by rintro ⟨⟩)).mp hu
          rw [BoundAll] at hus
          subst hus
          exact .leaf s s rfl rfl (.constant rfl)
      | _ => cases hl
  | @subselect P cs items rest distinct s₁ s₂ s₃ hitems hjoins _ _ _ hselect hrest =>
      have hnames := names_of_items hitems (Query.Grammar.isJoin_of_joinsWithin hjoins)
      obtain ⟨us, rfl, hus⟩ := (bound_node rfl (by rintro ⟨⟩)).mp hu
      refine .subselect s₃ (allExchanged_bound (fun t ht v hv => ?_) hus)
      rcases List.mem_cons.mp ht with rfl | ht
      · have hchild : ∀ t ∈ cs, Bindable c t := fun t ht =>
          (hbindable.child _ List.mem_cons_self).child t ht
        obtain ⟨ds, rfl, hds⟩ := (bound_node rfl (by rintro ⟨⟩)).mp hv
        exact .compound s₁ rfl (allExchanged_bound
          (fun t ht _ hbound => hselect t ht (hchild t ht) hbound) hds)
      rcases List.mem_cons.mp ht with rfl | ht
      · have hfrom : Names (.node .fromClause items s₂) := names_node rfl s₂ hnames
        rw [hv.eq_of_names hfrom]
        exact .names hfrom
      · exact hrest t ht (hbindable.child t (by simp [ht])) hv
  | @compound P l ts s hcompound hts ih =>
      by_cases hask : AskRoles l ts
      · obtain ⟨t, ds, r⟩ := hask
        rw [bound_isIn, if_neg (by simpa using hroles)] at hu
        obtain ⟨first, names, rfl, hnames, hfirst⟩ := hu
        obtain rfl : ds = [] := by
          cases hts (.node (.context .roles) ds r) (by simp) with
          | reference ht _ => rcases ht.label_cases with h | h <;> cases h
          | leaf => rfl
          | compound _ hcompound _ => cases hcompound
        refine .roles s r (ih t (by simp) (hbindable.child t (by simp)) hfirst) hnames ?_
        rintro rfl
        exact hroles (by simpa using hnames.symm)
      · have hparameter : isParameter l = false := by
          cases l <;> first | rfl | cases hcompound
        obtain ⟨us, rfl, hus⟩ := (bound_node hparameter hask).mp hu
        exact .compound s hcompound (allExchanged_bound
          (fun t ht _ hbound => ih t ht (hbindable.child t ht) hbound) hus)

/-- A parameter that holds a part of the context is as good as the part. -/
theorem environmentsExchanged_bound
    (hplain : ∀ role ∈ c.roles, ∀ items, role ≠ .collection items) (aliases : Bindings Value)
    (now : Timestamp) :
    EnvironmentsExchanged (contextExchange c values) { ruleEnvironment c now with aliases }
      { aliases, named := values, now } where
  aliases := rfl
  leaf l m _ _ hleaf := by
    cases hleaf with
    | context hvalue => simp [Expression.terminal?, ruleEnvironment, Environment.named?, hvalue]
    | named hattribute hvalue =>
        simp only [Expression.terminal?, ruleEnvironment, Environment.named?, hvalue]
        rw [← hattribute]
        rfl
    | constant hconstant => cases l <;> first | rfl | cases hconstant
  roles names hnames := ⟨c, rfl, hnames, hplain⟩

end Context

namespace Restriction

/-- With the parameters that stand for the context alone, conditions evaluate to what they
evaluate to under the context, errors included.  The conditions are bound one after the
other and share their parameters, none of which has a name that is taken. -/
theorem bound_conditions_evaluate_alike (ev : Evaluator)
    (hstrategies : .persistenceSession ∉ ev.strategies) (c : SecurityContext)
    (hroles : c.roles ≠ []) (hplain : ∀ role ∈ c.roles, ∀ items, role ≠ .collection items)
    (taken : List String) (conditions : List Phrase) (hconditions : ∀ t ∈ conditions, t.WellFormed)
    (hbindable : ∀ t ∈ conditions, isUnbindable c t = false) (now : Timestamp) :
    let bound := (bindContextAll c conditions).run { taken }
    (∀ name ∈ bound.2.values.names, name ∉ taken) ∧
      List.Forall₂ (fun t u => ∀ aliases : Bindings Value,
        ev.value { aliases, named := bound.2.values, now } u =
          ev.value { ruleEnvironment c now with aliases } t) conditions bound.1 := by
  intro bound
  obtain ⟨hfaithful, -, hbound⟩ := binds_boundAll conditions { taken } (faithful_start c taken)
  refine ⟨hfaithful.fresh, ?_⟩
  have hall := (List.forall₂_and_left _ _).mpr
    ⟨fun t ht => And.intro (hconditions t ht) (hbindable t ht),
      (hbound _ (Bindings.Extends.refl _)).forall₂⟩
  refine hall.imp fun t u ⟨⟨ht, hbindable⟩, hu⟩ aliases => ?_
  exact (Evaluator.value_exchanged hstrategies (environmentsExchanged_bound hplain aliases now)
    (ht.exchanged hroles (bindable_of_not_isUnbindable hbindable) hu)).symm

/-- A clerk with two roles and a limit on what may be read. -/
def clerk : SecurityContext where
  principal? := some (.string "ann")
  roles := [.string "clerk", .string "reader"]
  attributes := [("limit", .integer 3)]

def archive : Evaluator where
  world := ⟨[⟨"File", none, [("owner", .string "bob"), ("title", .string "reader")]⟩]⟩
  mapping := { classes := [
    { name := "File", properties := [⟨"owner", .basic⟩, ⟨"title", .basic⟩] }] }
  strategies := [.simple]

def archiveRules : List String :=
  ["GRANT READ ACCESS TO File f WHERE f.owner = CURRENT_PRINCIPAL OR LENGTH(f.title) < :limit",
    "GRANT READ ACCESS TO File f WHERE NOT (f.title IN (CURRENT_ROLES)) AND EXISTS" ++
      " (SELECT g FROM File g WHERE g = f AND g.owner = CURRENT_PRINCIPAL)"]

/-- Both rules ask for the principal, the second one in a subselect, and `cp0` is taken. -/
theorem bound_conditions_evaluate_alike_clerk : ∃ policy,
    Policy.ofTexts archive.mapping archiveRules = .ok policy ∧
    (policy.rules.filterMap AccessRule.condition?).length = 2 ∧
    (∀ t ∈ policy.rules.filterMap AccessRule.condition?, isUnbindable clerk t = false) ∧
    let bound := (bindContextAll clerk (policy.rules.filterMap AccessRule.condition?)).run
      { taken := ["cp0"] }
    bound.2.values.names = ["cp1", "limit0", "cr0", "cr1"] ∧
      (∀ name ∈ bound.2.values.names, name ∉ ["cp0"]) ∧
      List.Forall₂ (fun t u => ∀ aliases : Bindings Value,
        archive.value { aliases, named := bound.2.values, now := default } u =
          archive.value { ruleEnvironment clerk default with aliases } t)
        (policy.rules.filterMap AccessRule.condition?) bound.1 := by
  have hfound : (Policy.ofTexts archive.mapping archiveRules).toOption.any fun policy =>
      let conditions := policy.rules.filterMap AccessRule.condition?
      conditions.length == 2 && conditions.all (fun t => !isUnbindable clerk t) &&
        ((bindContextAll clerk conditions).run { taken := ["cp0"] }).2.values.names ==
          ["cp1", "limit0", "cr0", "cr1"] := by
    decide +kernel
  obtain ⟨policy, hpolicy, hfound⟩ := Query.Scope.ok_of_any hfound
  simp only [Bool.and_eq_true, beq_iff_eq, List.all_eq_true, Bool.not_eq_true'] at hfound
  obtain ⟨⟨hlength, hbindable⟩, hnames⟩ := hfound
  have hconditions : ∀ t ∈ policy.rules.filterMap AccessRule.condition?, t.WellFormed := by
    intro t ht
    obtain ⟨r, hr, hcondition⟩ := List.mem_filterMap.mp ht
    exact (Policy.derives_condition hpolicy hr hcondition).shapes
  exact ⟨policy, hpolicy, hlength, hbindable, hnames,
    bound_conditions_evaluate_alike archive (by decide) clerk (by simp [clerk])
      (by simp [clerk]) ["cp0"]
      _ hconditions hbindable default⟩

end Restriction

end RowGuard
