import RowGuard.Proofs.StoreQueries

/-!
# The parameters that a restriction brings in

Making a parameter and putting it into a condition are one step, so a condition that has
just been bound shows all parameters that binding it has made, and it shows no parameter
without a value.  Conditions are thrown away again when a later rule grants access
whatever the object is.  What was made for them only is then a value without a parameter.
-/

namespace RowGuard

open Query (AccessKind Label Phrase Statement)
open Query.Phrase
open Query.Grammar (DerivesText)

namespace Restriction

variable {c : SecurityContext}

/-! ## Parameters have values -/

theorem placeholders_namedParameter (name : String) :
    (namedParameter name).placeholders = [Label.namedParameter name] := rfl

mutual

/-- The named parameters of a bound phrase have values. -/
theorem Bound.has_value {values : Bindings Value} : ∀ {t u : Phrase}, Bound c values t u →
    ∀ name, Label.namedParameter name ∈ u.placeholders → name ∈ values.names
  | .node l ts s, u, h, name, hname => by
      have hheld : ∀ {v : Value}, HeldBy values v u → name ∈ values.names := by
        rintro v ⟨other, rfl, hvalue⟩
        obtain rfl : name = other := by simpa [placeholders_namedParameter] using hname
        exact Bindings.mem_names_of_find? hvalue
      by_cases hparameter : isParameter l = true
      · cases l with
        | context item =>
            rw [Bound] at h
            exact hheld h
        | namedParameter old =>
            rw [Bound] at h
            exact hheld h
        | _ => cases hparameter
      rw [Bool.not_eq_true] at hparameter
      by_cases hask : AskRoles l ts
      · obtain ⟨t, ds, r⟩ := hask
        rw [bound_isIn] at h
        split at h
        · subst h
          cases hname
        · obtain ⟨first, names, rfl, hnames, hfirst⟩ := h
          rw [placeholders_of_not rfl, List.flatMap_cons, List.mem_append] at hname
          rcases hname with hname | hname
          · exact hfirst.has_value name hname
          · obtain ⟨_, hmem, hname⟩ := List.mem_flatMap.mp hname
            obtain ⟨other, hother, rfl⟩ := List.mem_map.mp hmem
            obtain rfl : name = other := by simpa [placeholders_namedParameter] using hname
            have hvalue : values.find? name ∈ c.roles.map some :=
              hnames ▸ List.mem_map_of_mem hother
            obtain ⟨v, -, hv⟩ := List.mem_map.mp hvalue
            exact Bindings.mem_names_of_find? hv.symm
      · obtain ⟨us, rfl, hus⟩ := (bound_node hparameter hask).mp h
        refine hus.have_values name ?_
        rw [placeholders_node, List.mem_append] at hname
        refine hname.resolve_left fun hself => ?_
        split at hself
        · rw [← List.mem_singleton.mp hself] at hparameter
          cases hparameter
        · cases hself

theorem BoundAll.have_values {values : Bindings Value} : ∀ {ts us : List Phrase},
    BoundAll c values ts us →
    ∀ name, Label.namedParameter name ∈ us.flatMap placeholders → name ∈ values.names
  | [], us, h, name, hname => by
      rw [BoundAll] at h
      subst h
      cases hname
  | t :: ts, us, h, name, hname => by
      rw [BoundAll] at h
      obtain ⟨first, others, rfl, hfirst, hothers⟩ := h
      rw [List.flatMap_cons, List.mem_append] at hname
      rcases hname with hname | hname
      · exact hfirst.has_value name hname
      · exact hothers.have_values name hname

end

/-! ## Values have parameters -/

variable {α β : Type}

/-- A step of the binding that gives no values but under some names. -/
def Makes (b : Binder α) (R : List String → α → Prop) : Prop :=
  ∀ state, ∃ made, (∀ name ∈ (b.run state).2.values.names,
    name ∈ state.values.names ∨ name ∈ made) ∧ R made (b.run state).1

namespace Makes

variable {b : Binder α} {R : List String → α → Prop}

theorem pure {a : α} (h : R [] a) : Makes (pure a : Binder α) R :=
  fun _ => ⟨[], fun _ hname => Or.inl hname, h⟩

theorem bind {f : α → Binder β} {S : List String → β → Prop} (h : Makes b R)
    (hnext : ∀ a, Makes (f a) fun more r => ∀ made, R made a → S (made ++ more) r) :
    Makes (b >>= f) S := by
  intro state
  obtain ⟨made, hmade, hR⟩ := h state
  obtain ⟨more, hmore, hS⟩ := hnext (b.run state).1 (b.run state).2
  refine ⟨made ++ more, fun name hname => ?_, hS made hR⟩
  rw [List.mem_append, ← or_assoc]
  exact (hmore name hname).imp_left (hmade name)

end Makes

theorem makes_newParameter (base : String) (v : Value) :
    Makes (newParameter base v) fun made name => made = [name] := by
  intro state
  refine ⟨_, fun name hname => ?_, rfl⟩
  rw [List.mem_singleton]
  exact ((Bindings.mem_names_bind _ _ _).mp hname).symm

/-- All parameters that are made stand in the phrase. -/
def Shown (made : List String) (t : Phrase) : Prop :=
  ∀ name ∈ made, Label.namedParameter name ∈ t.placeholders

def AllShown (made : List String) (ts : List Phrase) : Prop :=
  ∀ name ∈ made, Label.namedParameter name ∈ ts.flatMap placeholders

theorem makes_parameterFor (source : Source) : Makes (parameterFor c source) Shown := by
  intro state
  cases hmade : state.made.lookup source with
  | some name =>
      rw [run_parameterFor_of_made hmade]
      exact ⟨[], fun _ hname => Or.inl hname, nofun⟩
  | none =>
      rw [run_parameterFor_of_new hmade]
      obtain ⟨made, hnames, rfl⟩ := makes_newParameter source.base (source.value c) state
      refine ⟨_, hnames, fun name hname => ?_⟩
      rw [List.mem_singleton.mp hname, placeholders_namedParameter]
      exact List.mem_cons_self

theorem makes_mapM (roles : List Value) :
    Makes (roles.mapM (newParameter roleBase)) fun made names => made = names := by
  induction roles with
  | nil => exact .pure rfl
  | cons role roles ih =>
      rw [List.mapM_cons]
      refine (makes_newParameter roleBase role).bind fun name => ih.bind fun names => .pure ?_
      rintro _ rfl _ rfl
      simp

theorem makes_roleParameters : Makes (roleParameters c) AllShown := by
  intro state
  cases hmade : state.roles? with
  | some names =>
      rw [run_roleParameters_of_made hmade]
      exact ⟨[], fun _ hname => Or.inl hname, nofun⟩
  | none =>
      rw [run_roleParameters_of_new hmade]
      obtain ⟨made, hnames, rfl⟩ := makes_mapM c.roles state
      refine ⟨_, hnames, fun name hname => ?_⟩
      exact List.mem_flatMap.mpr ⟨_, List.mem_map_of_mem hname, by
        rw [placeholders_namedParameter]
        exact List.mem_cons_self⟩

mutual

/-- Binding a phrase makes only parameters that the phrase then has. -/
theorem makes_bindContext : ∀ t : Phrase, Makes (bindContext c t) Shown
  | .node l ts s => by
      by_cases hparameter : isParameter l = true
      · cases l with
        | context item =>
            rw [bindContext]
            exact makes_parameterFor _
        | namedParameter name =>
            rw [bindContext]
            exact makes_parameterFor _
        | _ => cases hparameter
      · rw [Bool.not_eq_true] at hparameter
        by_cases hask : AskRoles l ts
        · obtain ⟨t, ds, r⟩ := hask
          cases hroles : c.roles.isEmpty with
          | true =>
              rw [bindContext_isIn_of_no_roles hroles]
              exact .pure nofun
          | false =>
              rw [bindContext_isIn hroles]
              refine makes_roleParameters.bind fun us => (makes_bindContext t).bind fun first =>
                .pure fun made hmade made' hmade' name hname => ?_
              rw [placeholders_of_not rfl, List.flatMap_cons, List.mem_append]
              rw [List.append_nil, List.mem_append] at hname
              exact hname.symm.imp (hmade name) (hmade' name)
        · rw [bindContext_node hparameter hask]
          refine (makes_bindContextAll ts).bind fun us => .pure fun made hmade name hname => ?_
          rw [List.append_nil] at hname
          rw [placeholders_node]
          exact List.mem_append_right _ (hmade name hname)

theorem makes_bindContextAll : ∀ ts : List Phrase, Makes (bindContextAll c ts) AllShown
  | [] => .pure nofun
  | t :: ts => by
      rw [bindContextAll]
      refine (makes_bindContext t).bind fun first => (makes_bindContextAll ts).bind fun others =>
        .pure fun made hmade made' hmade' name hname => ?_
      rw [List.flatMap_cons, List.mem_append]
      rw [List.append_nil, List.mem_append] at hname
      exact hname.imp (hmade' name) (hmade name)

end

/-! ## Rules and paths -/

variable {ev : Evaluator} {policy : Policy} {kind : AccessKind} {now : Timestamp}
  {taken : List String} {path : String} {rules : List AccessRule}
  {state final : ContextParameters}

theorem makes_instantiate (taken : List String) (path : String) (r : AccessRule) :
    Makes (instantiate c taken path r) Shown := by
  rw [instantiate_eq]
  exact makes_bindContext _

/-- The conditions of the rules show all parameters that were made for them. -/
theorem Instantiated.shown {cs : List Phrase}
    (h : Instantiated ev c now taken path rules state cs final) :
    ∀ name ∈ final.values.names, name ∈ state.values.names ∨
      Label.namedParameter name ∈ cs.flatMap placeholders := by
  induction h with
  | nil => exact fun _ hname => Or.inl hname
  | denied _ _ ih => exact ih
  | @depends r rest state between final t cs _ hrun _ ih =>
      intro name hname
      obtain ⟨made, hnames, hshown⟩ := makes_instantiate taken path r state
      rw [hrun] at hnames hshown
      rw [List.flatMap_cons, List.mem_append, ← or_assoc]
      exact (ih name hname).imp_left fun hname => (hnames name hname).imp_right (hshown name)

theorem Instantiated.eq_of_not_depends {cs : List Phrase}
    (h : Instantiated ev c now taken path rules state cs final)
    (hrules : ∀ r ∈ rules, (verdict ev c now r).outcome ≠ .ok .depends) : final = state := by
  induction h with
  | nil => rfl
  | denied _ _ ih => exact ih fun r hr => hrules r (List.mem_cons_of_mem _ hr)
  | depends hverdict => exact absurd hverdict (hrules _ List.mem_cons_self)

theorem Instantiated.not_granted {cs : List Phrase}
    (h : Instantiated ev c now taken path rules state cs final) :
    ∀ r ∈ rules, (verdict ev c now r).outcome ≠ .ok .granted := by
  induction h with
  | nil => simp
  | denied hverdict _ ih => exact List.forall_mem_cons.mpr ⟨by simp [hverdict], ih⟩
  | depends hverdict _ _ ih => exact List.forall_mem_cons.mpr ⟨by simp [hverdict], ih⟩

/-- The first rule that grants access whatever the object is, if there is one, comes before
all rules that leave it open. -/
def GrantsFirst (ev : Evaluator) (c : SecurityContext) (now : Timestamp)
    (rules : List AccessRule) : Prop :=
  ∀ earlier r later, rules = earlier ++ r :: later →
    (∀ g ∈ earlier, (verdict ev c now g).outcome ≠ .ok .granted) →
    (verdict ev c now r).outcome = .ok .granted →
      ∀ g ∈ earlier, (verdict ev c now g).outcome ≠ .ok .depends

theorem grantsFirst_of_not_granted
    (h : ∀ r ∈ rules, (verdict ev c now r).outcome ≠ .ok .granted) :
    GrantsFirst ev c now rules := by
  rintro earlier r later rfl - hgranted
  exact absurd hgranted (h r (by simp))

theorem placeholders_anyOf (cs : List Phrase) : (anyOf cs).placeholders =
    cs.flatMap placeholders := by
  rw [anyOf, placeholders_bracketed, disjunction, placeholders_joined rfl, List.flatMap_map]
  congr 1
  exact funext placeholders_bracketed

/-- Where no condition is thrown away, a restriction shows all parameters that were made. -/
theorem Restricted.shown {paths : List (String × String)} {found : List Phrase}
    (h : Restricted ev policy kind c now taken paths state found final)
    (hfirst : ∀ p ∈ paths, GrantsFirst ev c now (policy.rulesForType ev.mapping p.2 kind)) :
    ∀ name ∈ final.values.names, name ∈ state.values.names ∨
      Label.namedParameter name ∈ found.flatMap placeholders := by
  induction h with
  | nil => exact fun _ hname => Or.inl hname
  | granted hgranted _ ih =>
      obtain ⟨earlier, r, later, cs, heq, hverdict, hearlier⟩ := hgranted
      have hopen := hfirst _ List.mem_cons_self earlier r later heq hearlier.not_granted hverdict
      obtain rfl := hearlier.eq_of_not_depends hopen
      exact ih fun p hp => hfirst p (List.mem_cons_of_mem _ hp)
  | required _ hmade _ ih =>
      intro name hname
      rw [List.flatMap_cons, placeholders_anyOf, List.mem_append, ← or_assoc]
      exact (ih (fun p hp => hfirst p (List.mem_cons_of_mem _ hp)) name hname).imp_left
        (hmade.shown name)

/-- All named parameters of a restriction have values. -/
theorem Restricted.have_values {before : List String} {paths : List (String × String)}
    {found : List Phrase}
    (h : Restricted ev policy kind c now taken paths { taken := before } found final) :
    ∀ name, Label.namedParameter name ∈ found.flatMap placeholders →
      name ∈ final.values.names := by
  intro name hname
  obtain ⟨-, -, hall⟩ := h.binds (Q := fun _ _ values u =>
      ∀ name, Label.namedParameter name ∈ u.placeholders → name ∈ values.names)
    (fun p _ r _ => by
      rw [instantiate_eq]
      exact (binds_bound _).mono fun _ _ hbound => hbound.has_value)
    (faithful_start c before)
  obtain ⟨u, hu, hname⟩ := List.mem_flatMap.mp hname
  obtain ⟨p, -, cs, hasks⟩ := (hall _ (Bindings.Extends.refl _)).2 u hu
  rw [hasks.eq, placeholders_anyOf] at hname
  obtain ⟨v, hv, hname⟩ := List.mem_flatMap.mp hname
  obtain ⟨r, -, -, hvalues⟩ := hasks.made v hv
  exact hvalues name hname

/-! ## Queries -/

/-- Every named parameter that a query has gained is bound, and where no condition is thrown
away nothing else is.  However the text of the query is read, its parameters are these. -/
theorem gained_parameters_are_bound {texts : List String} {source text : String} {t : Phrase}
    {s : Statement} {r : RestrictedQuery} (hpolicy : Policy.ofTexts ev.mapping texts = .ok policy)
    (ht : Phrase.ofText source = .ok t)
    (hs : Statement.ofPhrase (some ev.mapping.model) t = .ok s)
    (hr : (restrict ev policy s kind c now).outcome = .ok r) (htext : r.text? = some text) :
    ∃ w : Phrase, (rewritten ev policy s kind c now).outcome = .ok (some w) ∧ text = w.render ∧
      (∀ u, Phrase.ofText text = .ok u → u.placeholders = w.placeholders) ∧
      (∀ name, name ∈ w.namedParameters ∧ name ∉ t.namedParameters →
        name ∈ r.parameters.names) ∧
      ((∀ p ∈ objectPaths ev.mapping s, GrantsFirst ev c now
          (policy.rulesForType ev.mapping p.2 (effectiveKind s kind))) →
        ∀ name, name ∈ r.parameters.names ↔
          name ∈ w.namedParameters ∧ name ∉ t.namedParameters) := by
  obtain ⟨found, final, hrestricted, hrewritten, hrendered, hvalues⟩ :=
    exists_rewritten hr (by rw [htext]; exact Option.some_ne_none text)
  have hcondition := Query.Statement.condition?_of_ofPhrase hs
  have hderives := Query.Statement.derivesText ht hs
  have hwritten : DerivesText (addRestrictions s found) :=
    derives_addRestrictions hcondition hderives (hrestricted.derives hpolicy ht hs)
  cases htext.symm.trans hrendered
  have hgained : ∀ name, name ∈ (addRestrictions s found).namedParameters ↔
      name ∈ t.namedParameters ∨ Label.namedParameter name ∈ found.flatMap placeholders := by
    intro name
    rw [mem_namedParameters, mem_namedParameters,
      mem_placeholders_addRestrictions hcondition hderives,
      Query.Statement.placeholders_of_ofPhrase hs, List.mem_flatMap]
  have hbound : ∀ name, name ∈ (addRestrictions s found).namedParameters ∧
      name ∉ t.namedParameters → name ∈ r.parameters.names := by
    rintro name ⟨hname, hnew⟩
    rw [hvalues]
    exact hrestricted.have_values name (((hgained name).mp hname).resolve_left hnew)
  refine ⟨_, hrewritten, rfl, fun u hu => Query.Grammar.placeholders_reread hwritten hu, hbound,
    fun hfirst name => ⟨fun hname => ?_, hbound name⟩⟩
  have hnew := fresh_of_restrict hs hr name hname
  rw [hvalues] at hname
  exact ⟨(hgained name).mpr (Or.inr ((hrestricted.shown hfirst name hname).resolve_left nofun)),
    hnew⟩

def officeEvaluator : Evaluator where
  world := ⟨[]⟩
  mapping := { classes := [{ name := "Document", properties := [⟨"owner", .basic⟩] }] }
  strategies := [.simple]

def ownerRule : String := "GRANT READ ACCESS TO Document d WHERE d.owner = CURRENT_PRINCIPAL"

def adminRule : String := "GRANT READ ACCESS TO Document d WHERE 'admin' IN (CURRENT_ROLES)"

def alice : SecurityContext := { principal? := some (.string "alice") }

def root : SecurityContext := { principal? := some (.string "root"), roles := [.string "admin"] }

/-- For alice the rule about administrators denies, so no condition is thrown away. -/
theorem gained_parameters_are_bound_alice : ∃ policy t s r,
    Policy.ofTexts officeEvaluator.mapping [ownerRule, adminRule] = .ok policy ∧
    Phrase.ofText "SELECT d FROM Document d" = .ok t ∧
    Statement.ofPhrase (some officeEvaluator.mapping.model) t = .ok s ∧
    (restrict officeEvaluator policy s .read alice default).outcome = .ok r ∧
    r.text? = some "SELECT d FROM Document d WHERE (d.owner = :cp0)" ∧
    r.parameters.names = ["cp0"] ∧
    (∀ p ∈ objectPaths officeEvaluator.mapping s, GrantsFirst officeEvaluator alice default
      (policy.rulesForType officeEvaluator.mapping p.2 (effectiveKind s .read))) ∧
    ∃ w : Phrase, r.text? = some w.render ∧
      ∀ name, name ∈ r.parameters.names ↔
        name ∈ w.namedParameters ∧ name ∉ t.namedParameters := by
  have hfound : (Policy.ofTexts officeEvaluator.mapping [ownerRule, adminRule]).toOption.any
      fun policy => (Phrase.ofText "SELECT d FROM Document d").toOption.any fun t =>
        (Statement.ofPhrase (some officeEvaluator.mapping.model) t).toOption.any fun s =>
          (objectPaths officeEvaluator.mapping s).all (fun p =>
            (policy.rulesForType officeEvaluator.mapping p.2 (effectiveKind s .read)).all fun r =>
              (verdict officeEvaluator alice default r).outcome.toOption != some .granted) &&
          (restrict officeEvaluator policy s .read alice default).outcome.toOption.any fun r =>
            r.text? == some "SELECT d FROM Document d WHERE (d.owner = :cp0)" &&
              r.parameters.names == ["cp0"] := by
    decide +kernel
  obtain ⟨policy, hpolicy, hfound⟩ := Query.Scope.ok_of_any hfound
  obtain ⟨t, ht, hfound⟩ := Query.Scope.ok_of_any hfound
  obtain ⟨s, hs, hfound⟩ := Query.Scope.ok_of_any hfound
  obtain ⟨hverdicts, hfound⟩ := (Bool.and_eq_true _ _).mp hfound
  obtain ⟨r, hr, hfound⟩ := Query.Scope.ok_of_any hfound
  simp only [Bool.and_eq_true, beq_iff_eq] at hfound
  obtain ⟨htext, hnames⟩ := hfound
  have hfirst : ∀ p ∈ objectPaths officeEvaluator.mapping s, GrantsFirst officeEvaluator alice
      default (policy.rulesForType officeEvaluator.mapping p.2 (effectiveKind s .read)) := by
    refine fun p hp => grantsFirst_of_not_granted fun r hr hgranted => ?_
    have hverdict := List.all_eq_true.mp (List.all_eq_true.mp hverdicts p hp) r hr
    rw [hgranted] at hverdict
    cases hverdict
  obtain ⟨w, -, hw, -, -, hexactly⟩ := gained_parameters_are_bound hpolicy ht hs hr htext
  exact ⟨policy, t, s, r, hpolicy, ht, hs, hr, htext, hnames, hfirst, w, hw ▸ htext,
    hexactly hfirst⟩

/-- Root is an administrator, which the second rule tells only after the condition of the
first one has been bound: no parameter is gained, and the principal is bound. -/
theorem thrown_away_condition_leaves_value : ∃ policy t s r,
    Policy.ofTexts officeEvaluator.mapping [ownerRule, adminRule] = .ok policy ∧
    Phrase.ofText "SELECT d FROM Document d" = .ok t ∧
    Statement.ofPhrase (some officeEvaluator.mapping.model) t = .ok s ∧
    (restrict officeEvaluator policy s .read root default).outcome = .ok r ∧
    r.text? = some "SELECT d FROM Document d" ∧ t.namedParameters = [] ∧
    r.parameters.names = ["cp0"] := by
  have hfound : (Policy.ofTexts officeEvaluator.mapping [ownerRule, adminRule]).toOption.any
      fun policy => (Phrase.ofText "SELECT d FROM Document d").toOption.any fun t =>
        (Statement.ofPhrase (some officeEvaluator.mapping.model) t).toOption.any fun s =>
          (restrict officeEvaluator policy s .read root default).outcome.toOption.any fun r =>
            r.text? == some "SELECT d FROM Document d" && t.namedParameters == [] &&
              r.parameters.names == ["cp0"] := by
    decide +kernel
  obtain ⟨policy, hpolicy, hfound⟩ := Query.Scope.ok_of_any hfound
  obtain ⟨t, ht, hfound⟩ := Query.Scope.ok_of_any hfound
  obtain ⟨s, hs, hfound⟩ := Query.Scope.ok_of_any hfound
  obtain ⟨r, hr, hfound⟩ := Query.Scope.ok_of_any hfound
  simp only [Bool.and_eq_true, beq_iff_eq] at hfound
  obtain ⟨⟨htext, hnone⟩, hnames⟩ := hfound
  exact ⟨policy, t, s, r, hpolicy, ht, hs, hr, htext, hnone, hnames⟩

end Restriction

end RowGuard
