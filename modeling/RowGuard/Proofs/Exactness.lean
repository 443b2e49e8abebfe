import RowGuard.Proofs.Conformity
import RowGuard.Proofs.Polarity
import RowGuard.Proofs.Soundness

/-!
# Restricted queries are exact

A rule whose aliases are all different and none of those of the query goes into
the query as it stands.  Then what the rule says of an object is what its
condition in the query says of the rows that give the object, in both
directions.  So no row that is left gives an object that the rules refuse, and
no row is lost that gives accessible objects only.

Rules are looked up by the type of the path, and objects are asked for by their
class.  Where the type has one class only, both lead to the same rules.
-/

namespace RowGuard

open Query (AccessKind Phrase Statement)
open Query.Phrase

/-! ## Rules that go into a query as they stand -/

theorem notDeclared_of_not_mem {x : String} {t : Phrase} (h : x ∉ declaredWithin t) :
    NotDeclared x t := by
  intro u hu hlabel hmem
  refine h (List.mem_flatMap.mpr ⟨u, List.mem_filter.mpr ⟨hu, ?_⟩, hmem⟩)
  simp [hlabel]

namespace Restriction

variable {ev : Evaluator} {policy : Policy} {kind : AccessKind} {c : SecurityContext}
  {now : Timestamp} {taken : List String} {r : AccessRule} {condition : Phrase}

/-- A condition of which nothing is to be renamed, asked by someone whose roles are
single values. -/
structure Fits (c : SecurityContext) (taken : List String) (r : AccessRule) (condition : Phrase) :
    Prop where
  distinct : (r.subject :: declaredWithin condition).Nodup
  free : ∀ a ∈ declaredWithin condition, a ∉ taken
  single : ∀ role ∈ c.roles, ∀ items, role ≠ .collection items

theorem Fits.separate_eq (h : Fits c taken r condition) :
    (separate id taken condition).1 = condition := by
  rw [separate_of_distinct (List.nodup_cons.mp h.distinct).2 h.free]

/-- What goes into a query as it stands says there what it said before. -/
theorem Fits.transfers (h : Fits c taken r condition)
    (hwithin : Within (· = r.subject) condition) : Transfers c taken r condition where
  apart := by
    rw [h.separate_eq]
    exact ⟨_, _, hwithin.corresponds (k := Link.renaming r.subject) (fun _ _ _ => rfl)
      (by simp [Diagonal]) (fun n hn => Or.inr ⟨hn, hn, rfl⟩) (Nat.le_refl _)⟩
  ordered := by
    rw [h.separate_eq]
    intro u hu hlabel hmem
    have hfree := (List.nodup_cons.mp h.distinct).1
    exact absurd hmem (notDeclared_of_not_mem hfree u hu hlabel)
  roles _ _ _ := h.single

/-! ## Memberships in no roles -/

variable {n : Nat} {env : Environment}

/-- A condition that holds still holds when its memberships in no roles are taken for
false, if they all count the same way. -/
theorem holds_settle (hc : env.context? = some c)
    (hpolar : c.roles = [] → ∃ positive, Polar positive condition)
    (h : (ev.truthAt n env condition).outcome = .ok (some true)) :
    (ev.truthAt n env (settle c condition)).outcome = .ok (some true) := by
  by_cases hroles : c.roles = []
  · obtain ⟨positive, hpolar⟩ := hpolar hroles
    have hfirms : Traced.Firms (!positive) (ev.truthAt n env condition)
        (ev.truthAt n env (settle c condition)) :=
      Expression.firms_truth (Expression.settle_firms hc hroles hpolar)
    cases hsettled : (ev.truthAt n env (settle c condition)).outcome with
    | error e =>
        obtain ⟨e', he⟩ := hfirms.1 e hsettled
        cases h.symm.trans he
    | ok b =>
        rcases hfirms.2 _ b h hsettled with rfl | ⟨hnone, -⟩
        · rfl
        · cases hnone
  · rwa [settle_of_roles (by simpa using hroles)]

/-- A condition whose memberships in no roles all count positively holds or fails where
it does with them taken for false. -/
theorem holdsOrFails_of_settle (hc : env.context? = some c) (hroles : c.roles = [])
    (hpolar : Polar true condition)
    (h : Expression.HoldsOrFails (ev.truthAt n env (settle c condition))) :
    Expression.HoldsOrFails (ev.truthAt n env condition) := by
  have hfirms : Traced.Firms false (ev.truthAt n env condition)
      (ev.truthAt n env (settle c condition)) :=
    Expression.firms_truth (Expression.settle_firms hc hroles hpolar)
  intro b hb
  cases hsettled : (ev.truthAt n env (settle c condition)).outcome with
  | error e =>
      obtain ⟨e', he⟩ := hfirms.1 e hsettled
      cases hb.symm.trans he
  | ok d =>
      obtain rfl := h d hsettled
      rcases hfirms.2 b _ hb hsettled with rfl | ⟨-, hfalse⟩
      · rfl
      · cases hfalse

/-! ## A document for the staff -/

def staffDocument : EntityClass := { name := "Document", properties := [⟨"title", .basic⟩] }

def staffEvaluator : Evaluator where
  world := ⟨[⟨"Document", none, [("title", .string "staff")]⟩]⟩
  mapping := { classes := [staffDocument] }
  strategies := [.simple]

def staffContext : SecurityContext := { roles := [.string "staff"] }

def staffRow (values : Bindings Value) : Environment :=
  .ofRow [("x", .entity 0)] (Bindings.bindAll [] values) [] default

theorem conforms_staff : staffEvaluator.mapping.Conforms staffEvaluator.world := by
  have htitle : staffEvaluator.mapping.propertyType? "Document" "title" = some .basic := by
    decide +kernel
  apply Mapping.conforms_of_objects
  intro o ho b hb type htype
  obtain rfl := List.mem_singleton.mp ho
  obtain rfl := List.mem_singleton.mp hb
  obtain rfl := Option.some.inj (htitle.symm.trans htype)
  exact ⟨rfl, by simp, by simp⟩

theorem keepsProperties_staff : staffEvaluator.mapping.KeepsProperties :=
  Mapping.keepsProperties_of_no_parents (by decide)

/-- The documents that the staff may read are those with one of their roles as title. -/
theorem exists_staffQuery : ∃ policy t s, Policy.ofTexts staffEvaluator.mapping
      ["GRANT READ ACCESS TO Document d WHERE d.title IN (CURRENT_ROLES)"] = .ok policy ∧
    Phrase.ofText "SELECT x FROM Document x" = .ok t ∧
    Statement.ofPhrase (some staffEvaluator.mapping.model) t = .ok s ∧ s.kind = .select ∧
    s.condition? = none ∧ objectPaths staffEvaluator.mapping s = [("x", "Document")] ∧
    (∀ r ∈ policy.rulesForType staffEvaluator.mapping "Document" .read, ∀ condition,
      r.condition? = some condition → isUnbindable staffContext condition = false ∧
        Fits staffContext (declaredAnywhere s) r condition) ∧
    (askRules staffEvaluator staffContext default 0 (policy.rulesFor "Document" .read)).outcome =
      .ok true ∧
    ∃ result w, (restrict staffEvaluator policy s .read staffContext default).outcome = .ok result ∧
      result.text? ≠ none ∧
      (rewritten staffEvaluator policy s .read staffContext default).outcome = .ok (some w) ∧
      (staffEvaluator.truthOf? (staffRow result.parameters) w.conditionOf?).outcome =
        .ok (some true) := by
  have hfound : (Policy.ofTexts staffEvaluator.mapping
      ["GRANT READ ACCESS TO Document d WHERE d.title IN (CURRENT_ROLES)"]).toOption.any fun policy =>
      (Phrase.ofText "SELECT x FROM Document x").toOption.any fun t =>
        (Statement.ofPhrase (some staffEvaluator.mapping.model) t).toOption.any fun s =>
          decide (s.kind = .select ∧ s.condition? = none ∧
            objectPaths staffEvaluator.mapping s = [("x", "Document")]) &&
          (policy.rulesForType staffEvaluator.mapping "Document" .read).all (fun r =>
            r.condition?.all fun condition => decide (isUnbindable staffContext condition = false ∧
              (r.subject :: declaredWithin condition).Nodup ∧
                ∀ a ∈ declaredWithin condition, a ∉ declaredAnywhere s)) &&
          (askRules staffEvaluator staffContext default 0
            (policy.rulesFor "Document" .read)).outcome.toOption.any id &&
          (restrict staffEvaluator policy s .read staffContext default).outcome.toOption.any
            fun result => result.text?.isSome &&
              (rewritten staffEvaluator policy s .read staffContext default).outcome.toOption.any
                fun w? => w?.any fun w => (staffEvaluator.truthOf? (staffRow result.parameters)
                  w.conditionOf?).outcome.toOption.any fun b => b == some true := by
    decide +kernel
  obtain ⟨policy, hpolicy, hfound⟩ := Query.Scope.ok_of_any hfound
  obtain ⟨t, ht, hfound⟩ := Query.Scope.ok_of_any hfound
  obtain ⟨s, hs, hfound⟩ := Query.Scope.ok_of_any hfound
  simp only [Bool.and_eq_true, decide_eq_true_eq, List.all_eq_true, Option.all_eq_true] at hfound
  obtain ⟨⟨⟨⟨hkind, hnone, hpaths⟩, hrules⟩, hasked⟩, hresult⟩ := hfound
  obtain ⟨granted, hgranted, rfl⟩ := Query.Scope.ok_of_any hasked
  obtain ⟨result, hresult, hfound⟩ := Query.Scope.ok_of_any hresult
  obtain ⟨htext, hfound⟩ := (Bool.and_eq_true _ _).mp hfound
  obtain ⟨w?, hrewritten, hfound⟩ := Query.Scope.ok_of_any hfound
  obtain ⟨w, rfl, hfound⟩ := (Option.any_eq_true _ _).mp hfound
  obtain ⟨b, hholds, hb⟩ := Query.Scope.ok_of_any hfound
  rw [beq_iff_eq] at hb
  subst hb
  refine ⟨policy, t, s, hpolicy, ht, hs, hkind, hnone, hpaths, fun r hr condition hcondition => ?_,
    hgranted, result, w, hresult, fun hnone => ?_, hrewritten, hholds⟩
  · obtain ⟨hbindable, hdistinct, hfree⟩ := hrules r hr condition hcondition
    exact ⟨hbindable, hdistinct, hfree, by simp [staffContext]⟩
  · rw [hnone] at htext
    cases htext

/-! ## Rows -/

section Query

variable {texts : List String} {source : String} {t : Phrase} {s : Statement}
  {row user : Bindings Value} {positional : List (Nat × Value)} {path : String} {e : ObjectId}

/-- Where objects are as the mapping has them, it tells the truth of what a row gives. -/
theorem typedPath_of_conforms (hconforms : ev.mapping.Conforms ev.world)
    (hkeeps : ev.mapping.KeepsProperties) (hwords : ∀ w ∈ Text.Dotted.parts path, IsWord w)
    (hvalue : (ev.value (.ofRow row user positional now) (ofDotted path)).run.outcome =
      .ok (some (.entity e))) : TypedPath ev row path e := by
  intro source hsource
  obtain ⟨source', hsource', hleads⟩ := exists_source hwords hvalue
  cases hsource.symm.trans hsource'
  exact typedAlong_of_conforms hconforms hkeeps hleads

/-- Rules that fit a query are preserved on their way into it if their memberships count
positively wherever there are no roles. -/
theorem preserved_of_fits (hpolicy : Policy.ofTexts ev.mapping texts = .ok policy)
    {rules : List AccessRule} (hrules : ∀ r ∈ rules, r ∈ policy.rules)
    (hfits : ∀ r ∈ rules, ∀ condition, r.condition? = some condition →
      isUnbindable c condition = false → Fits c taken r condition)
    (hpolar : c.roles = [] → ∀ r ∈ rules, ∀ condition, r.condition? = some condition →
      Polar true condition) : Preserved ev c now taken rules e where
  transfers r hr _ condition hcondition hbindable := by
    obtain ⟨said, hsaid⟩ := Policy.says_of_ofTexts hpolicy
    exact (hfits r hr condition hcondition hbindable).transfers
      ((hsaid.within (hrules r hr)).2 condition hcondition)
  settles hroles r hr _ condition hcondition hsettled := by
    rw [truthFor, Evaluator.truth_eq]
    exact holdsOrFails_of_settle rfl hroles (hpolar hroles r hr condition hcondition) hsettled

/-- Where all rules fit, a row that meets the condition of a restricted query meets the
query's own, and what it gives is nothing that the rules refuse. -/
theorem kept_rows_are_accessible (hsimple : ev.strategies = [.simple])
    (hpolicy : Policy.ofTexts ev.mapping texts = .ok policy) (ht : Phrase.ofText source = .ok t)
    (hs : Statement.ofPhrase (some ev.mapping.model) t = .ok s) (hkind : s.kind = .select)
    (hconforms : ev.mapping.Conforms ev.world) (hkeeps : ev.mapping.KeepsProperties)
    (hfits : ∀ path type, (path, type) ∈ objectPaths ev.mapping s →
      ∀ r ∈ policy.rulesForType ev.mapping type kind, ∀ condition, r.condition? = some condition →
        (isUnbindable c condition = false → Fits c (declaredAnywhere s) r condition) ∧
          (c.roles = [] → Polar true condition))
    {result : RestrictedQuery} (hresult : (restrict ev policy s kind c now).outcome = .ok result)
    (htext : result.text? ≠ none) :
    ∃ w, (rewritten ev policy s kind c now).outcome = .ok (some w) ∧
      result.text? = some w.render ∧
      ∀ (row user : Bindings Value) (positional : List (Nat × Value)),
        (ev.truthOf? (.ofRow row (user.bindAll result.parameters) positional now)
          w.conditionOf?).outcome = .ok (some true) →
        (ev.truthOf? (.ofRow row user positional now) s.condition?).outcome = .ok (some true) ∧
        ∀ path type e, (path, type) ∈ objectPaths ev.mapping s →
          (ev.value (.ofRow row user positional now) (ofDotted path)).run.outcome =
            .ok (some (.entity e)) →
          (∃ k ∈ ev.mapping.concreteClasses type, k.name = ev.world.typeOf e) →
            (askRules ev c now e (policy.rulesFor (ev.world.typeOf e) kind)).outcome ≠
              .ok false := by
  obtain ⟨w, hrewritten, hrendered, hrows⟩ :=
    restricted_rows_are_accessible hsimple hpolicy ht hs hkind hresult htext
  refine ⟨w, hrewritten, hrendered, fun row user positional hholds => ?_⟩
  obtain ⟨hown, hobjects⟩ := hrows row user positional hholds
  refine ⟨hown, fun path type e hpath hvalue hclass => ?_⟩
  have hrules : ∀ r ∈ policy.rulesForType ev.mapping type kind, r ∈ policy.rules :=
    fun r hr => (Policy.covers_of_mem_rulesForType hr).1
  refine hobjects path type e hpath hvalue hclass
    (typedPath_of_conforms hconforms hkeeps
      (words_of_mem_objectPaths ht hs hkind hpath).1 hvalue)
    (preserved_of_fits hpolicy hrules (fun r hr condition hcondition =>
      (hfits path type hpath r hr condition hcondition).1) fun hroles r hr condition hcondition =>
        (hfits path type hpath r hr condition hcondition).2 hroles)

/-- A document whose title is the role of the staff may be read by the staff, since its
row is not filtered out. -/
theorem kept_rows_are_accessible_staff :
    ∃ policy, Policy.ofTexts staffEvaluator.mapping
        ["GRANT READ ACCESS TO Document d WHERE d.title IN (CURRENT_ROLES)"] = .ok policy ∧
      (askRules staffEvaluator staffContext default 0 (policy.rulesFor "Document" .read)).outcome ≠
        .ok false := by
  obtain ⟨policy, t, s, hpolicy, ht, hs, hkind, -, hpaths, hrules, -, result, w, hresult, htext,
    hrewritten, hholds⟩ := exists_staffQuery
  obtain ⟨w', hrewritten', -, hrows⟩ := kept_rows_are_accessible rfl hpolicy ht hs hkind
    conforms_staff keepsProperties_staff (fun path type hpath r hr condition hcondition => by
      rw [hpaths, List.mem_singleton] at hpath
      cases hpath
      exact ⟨fun _ => (hrules r hr condition hcondition).2, fun h => by cases h⟩) hresult htext
  obtain rfl : w = w' := Option.some.inj (Except.ok.inj (hrewritten.symm.trans hrewritten'))
  exact ⟨policy, hpolicy, (hrows [("x", .entity 0)] [] [] hholds).2 "x" "Document" 0
    (by simp [hpaths]) rfl (by decide +kernel)⟩

/-- Under a negation, taking memberships in no roles for false gives away a document
without owner, which the rule does not give to someone without roles. -/
theorem kept_row_of_refused_object :
    let ev : Evaluator :=
      { world := ⟨[⟨"Document", none, [("owner", .null)]⟩]⟩, strategies := [.simple]
        mapping := { classes := [{ name := "Document", properties := [⟨"owner", .basic⟩] }] } }
    ∃ policy t s result, ∃ w : Phrase, Policy.ofTexts ev.mapping
        ["GRANT READ ACCESS TO Document d WHERE NOT (d.owner IN (CURRENT_ROLES))"] = .ok policy ∧
      Phrase.ofText "SELECT x FROM Document x" = .ok t ∧
      Statement.ofPhrase (some ev.mapping.model) t = .ok s ∧
      (restrict ev policy s .read .anonymous default).outcome = .ok result ∧
      result.text? = some "SELECT x FROM Document x WHERE (NOT (1 = 0))" ∧
      (rewritten ev policy s .read .anonymous default).outcome = .ok (some w) ∧
      (ev.truthOf? (.ofRow [("x", .entity 0)] result.parameters [] default)
        w.conditionOf?).outcome = .ok (some true) ∧
      (askRules ev .anonymous default 0 (policy.rulesFor "Document" .read)).outcome =
        .ok false := by
  intro ev
  have hfound : (Policy.ofTexts ev.mapping
      ["GRANT READ ACCESS TO Document d WHERE NOT (d.owner IN (CURRENT_ROLES))"]).toOption.any
      fun policy => (Phrase.ofText "SELECT x FROM Document x").toOption.any fun t =>
        (Statement.ofPhrase (some ev.mapping.model) t).toOption.any fun s =>
          (askRules ev .anonymous default 0
            (policy.rulesFor "Document" .read)).outcome.toOption.any not &&
          (restrict ev policy s .read .anonymous default).outcome.toOption.any fun result =>
            result.text? == some "SELECT x FROM Document x WHERE (NOT (1 = 0))" &&
              (rewritten ev policy s .read .anonymous default).outcome.toOption.any
                fun w? => w?.any fun w => (ev.truthOf? (.ofRow [("x", .entity 0)]
                  result.parameters [] default) w.conditionOf?).outcome.toOption.any
                    fun b => b == some true := by
    decide +kernel
  obtain ⟨policy, hpolicy, hfound⟩ := Query.Scope.ok_of_any hfound
  obtain ⟨t, ht, hfound⟩ := Query.Scope.ok_of_any hfound
  obtain ⟨s, hs, hfound⟩ := Query.Scope.ok_of_any hfound
  obtain ⟨hasked, hfound⟩ := (Bool.and_eq_true _ _).mp hfound
  obtain ⟨granted, hgranted, hrefused⟩ := Query.Scope.ok_of_any hasked
  obtain ⟨result, hresult, hfound⟩ := Query.Scope.ok_of_any hfound
  obtain ⟨htext, hfound⟩ := (Bool.and_eq_true _ _).mp hfound
  obtain ⟨w?, hrewritten, hfound⟩ := Query.Scope.ok_of_any hfound
  obtain ⟨w, rfl, hfound⟩ := (Option.any_eq_true _ _).mp hfound
  obtain ⟨b, hholds, hb⟩ := Query.Scope.ok_of_any hfound
  obtain rfl := beq_iff_eq.mp hb
  obtain rfl : granted = false := by simpa using hrefused
  exact ⟨policy, t, s, result, w, hpolicy, ht, hs, hresult, beq_iff_eq.mp htext, hrewritten,
    hholds, hgranted⟩

/-- A rule that fits the query and grants access to the object that a row gives holds or
fails for the row. -/
theorem Becomes.holdsOrFails (hsimple : ev.strategies = [.simple]) {u : Phrase}
    {values : Bindings Value} (h : Becomes c (declaredAnywhere s) path r values u)
    (hcondition : r.condition? = some condition) (hbindable : isUnbindable c condition = false)
    (htransfers : Transfers c (declaredAnywhere s) r condition)
    (hpolar : c.roles = [] → ∃ positive, Polar positive condition)
    (hheld : ∀ name v, values.find? name = some v → user.find? name = some v)
    (hwords : ∀ w ∈ Text.Dotted.parts path, IsWord w)
    {own : Bindings Value} (hvalue : (ev.value (.ofRow row own positional now)
      (ofDotted path)).run.outcome = .ok (some (.entity e)))
    (htyped : TypedPath ev row path e) {n : Nat} (hn : u.depth ≤ n)
    (hgrants : (truthFor ev c now e r.subject condition).outcome = .ok (some true)) :
    Expression.HoldsOrFails (ev.truthAt n (.ofRow row user positional now) u) := by
  have hagree := h.agree hsimple hcondition hbindable htransfers hheld hwords hvalue htyped
    (depth_settle_le condition) hn
  rw [truthFor, Evaluator.truth_eq] at hgrants
  exact hagree.holdsOrFails (holds_settle rfl hpolar hgrants)

/-- Where access to an object is granted, some rule for the type grants it, provided that
the objects of the type have one class only. -/
theorem exists_grants (hpolicy : Policy.ofTexts ev.mapping texts = .ok policy) {type : String}
    {k : EntityClass} (hone : ev.mapping.concreteClasses type = [k])
    (haccess : (askRules ev c now e (policy.rulesFor k.name kind)).outcome = .ok true) :
    ∃ r ∈ policy.rulesForType ev.mapping type kind, Grants ev c now e r := by
  obtain ⟨said, hsaid⟩ := Policy.says_of_ofTexts hpolicy
  obtain ⟨r, hr, hgrants⟩ := exists_of_askRules haccess
  obtain ⟨first, hfirst, hposition⟩ := Policy.exists_mem_rulesForType hone hr
  obtain ⟨hsubject, hcondition⟩ := hsaid.agree (Policy.covers_of_mem_rulesForType hfirst).1
    (Policy.mem_rules_of_rulesFor hr) hposition
  refine ⟨first, hfirst, fun condition h => ?_⟩
  rw [hsubject]
  exact hgrants condition (hcondition.symm.trans h)

/-- A rule that grants access to an object is not given up before its subject is known. -/
theorem Grants.not_denied (hpolicy : Policy.ofTexts ev.mapping texts = .ok policy)
    (hr : r ∈ policy.rules) (h : Grants ev c now e r) :
    (verdict ev c now r).outcome ≠ .ok .denied := by
  intro hdenied
  cases hcondition : r.condition? with
  | none =>
      unfold verdict at hdenied
      rw [hcondition] at hdenied
      cases hdenied
  | some condition =>
      have hfalse : some true = some false :=
        truth_of_verdict (sound_of_mem_rules hpolicy hr hcondition) hcondition rfl hdenied _
          (h condition hcondition)
      cases hfalse

/-- An object that a path of a row leads to and that the rules grant access to. -/
structure Accessible (ev : Evaluator) (policy : Policy) (kind : AccessKind) (c : SecurityContext)
    (now : Timestamp) (env : Environment) (path type : String) (e : ObjectId) : Prop where
  value : (ev.value env (ofDotted path)).run.outcome = .ok (some (.entity e))
  /-- The objects of the type have one class only, and the rules are asked by it. -/
  sole : ∃ k, ev.mapping.concreteClasses type = [k] ∧ ev.world.typeOf e = k.name
  granted : (askRules ev c now e (policy.rulesFor (ev.world.typeOf e) kind)).outcome = .ok true

/-- Where everything that a row gives is accessible and the row meets the condition of a
query, the query is not refused, and the condition of the restricted query holds for the
row or fails. -/
theorem accessible_rows_are_kept (hsimple : ev.strategies = [.simple])
    (hpolicy : Policy.ofTexts ev.mapping texts = .ok policy) (ht : Phrase.ofText source = .ok t)
    (hs : Statement.ofPhrase (some ev.mapping.model) t = .ok s) (hkind : s.kind = .select)
    (hconforms : ev.mapping.Conforms ev.world) (hkeeps : ev.mapping.KeepsProperties)
    (hfits : ∀ path type, (path, type) ∈ objectPaths ev.mapping s →
      ∀ r ∈ policy.rulesForType ev.mapping type kind, ∀ condition, r.condition? = some condition →
        isUnbindable c condition = false ∧ Fits c (declaredAnywhere s) r condition ∧
          (c.roles = [] → ∃ positive, Polar positive condition))
    (haccess : ∀ path type, (path, type) ∈ objectPaths ev.mapping s →
      ∃ e, Accessible ev policy kind c now (.ofRow row user positional now) path type e)
    (hholds : (ev.truthOf? (.ofRow row user positional now) s.condition?).outcome =
      .ok (some true))
    {result : RestrictedQuery} (hresult : (restrict ev policy s kind c now).outcome = .ok result) :
    ∃ w, (rewritten ev policy s kind c now).outcome = .ok (some w) ∧
      result.text? = some w.render ∧
      Expression.HoldsOrFails (ev.truthOf?
        (.ofRow row (user.bindAll result.parameters) positional now) w.conditionOf?) := by
  -- For each path some rule grants access, so it has not been given up.
  have hgrants : ∀ path type, (path, type) ∈ objectPaths ev.mapping s → ∃ e r,
      Accessible ev policy kind c now (.ofRow row user positional now) path type e ∧
      r ∈ policy.rulesForType ev.mapping type kind ∧ Grants ev c now e r := by
    intro path type hpath
    obtain ⟨e, he⟩ := haccess path type hpath
    obtain ⟨k, hone, hname⟩ := he.sole
    have hasked := he.granted
    rw [hname] at hasked
    obtain ⟨r, hr, hgrants⟩ := exists_grants hpolicy hone hasked
    exact ⟨e, r, he, hr, hgrants⟩
  have htext : result.text? ≠ none := by
    rw [ne_eq, text?_eq_none_iff hresult, effectiveKind_select hkind]
    rintro ⟨⟨path, type⟩, hpath, hdenied⟩
    obtain ⟨e, r, -, hr, hgrants⟩ := hgrants path type hpath
    exact hgrants.not_denied hpolicy (Policy.covers_of_mem_rulesForType hr).1 (hdenied r hr)
  obtain ⟨found, final, hrestricted, hrewritten, hrendered, hparameters⟩ :=
    exists_rewritten hresult htext
  rw [effectiveKind_select hkind] at hrestricted
  obtain ⟨hfaithful, -, hfound⟩ := hrestricted.becomes hpolicy ht hs hkind
  obtain ⟨said, hsaid⟩ := Policy.says_of_ofTexts hpolicy
  refine ⟨addRestrictions s found, hrewritten, hrendered, ?_⟩
  rw [hparameters]
  refine holdsOrFails_addRestrictions hs fun n u hu hn => ?_
  rcases List.mem_append.mp hu with hown | hu
  · -- The condition of the query has none of the new parameters.
    obtain ⟨condition, hcondition, rfl⟩ := Option.map_eq_some_iff.mp (Option.mem_toList.mp hown)
    rw [hcondition, Evaluator.truthOf?] at hholds
    rw [depth_bracketed] at hn
    obtain ⟨hwell, hnames⟩ := Statement.wellFormed_condition ht hs hkind hcondition
    have hfresh : ∀ name ∈ s.parameters, name ∉ final.values.names :=
      fun name hname hnew => hfaithful.fresh name hnew hname
    have hsame := (truth_own hsimple hfresh hwell hnames hn).holdsOrFails hholds
    unfold Evaluator.truthAt at hsame ⊢
    rwa [Expression.truthOf_bracketed]
  · obtain ⟨⟨path, type⟩, hpath, cs, rfl, -, -, hleft⟩ := hfound u hu
    obtain ⟨e, r, he, hr, hgrants⟩ := hgrants path type hpath
    obtain ⟨hmem, -⟩ := Policy.covers_of_mem_rulesForType hr
    obtain ⟨hdepends, v, hv, hbecomes⟩ :=
      (hleft r hr).resolve_left (hgrants.not_denied hpolicy hmem)
    refine Expression.anyOf_holdsOrFails ⟨v, hv, ?_⟩
    obtain ⟨hwords, -⟩ := words_of_mem_objectPaths ht hs hkind hpath
    have hheld : ∀ name v, final.values.find? name = some v →
        (user.bindAll final.values).find? name = some v := by
      intro name v hv
      rw [Bindings.find?_bindAll hfaithful.nodup, hv]
      rfl
    have htyped := typedPath_of_conforms hconforms hkeeps hwords he.value
    cases hcondition : r.condition? with
    | none =>
        unfold verdict at hdepends
        rw [hcondition] at hdepends
        cases hdepends
    | some condition =>
        obtain ⟨hbindable, hfit, hpolar⟩ := hfits path type hpath r hr condition hcondition
        exact hbecomes.holdsOrFails hsimple hcondition hbindable
          (hfit.transfers ((hsaid.within hmem).2 condition hcondition)) hpolar hheld hwords he.value
          htyped (Nat.le_trans (depth_le_anyOf hv) hn) (hgrants condition hcondition)

end Query

/-- The row of a document that the staff may read is kept. -/
theorem accessible_rows_are_kept_staff :
    ∃ policy t s result, ∃ w : Phrase, Policy.ofTexts staffEvaluator.mapping
        ["GRANT READ ACCESS TO Document d WHERE d.title IN (CURRENT_ROLES)"] = .ok policy ∧
      Phrase.ofText "SELECT x FROM Document x" = .ok t ∧
      Statement.ofPhrase (some staffEvaluator.mapping.model) t = .ok s ∧
      (restrict staffEvaluator policy s .read staffContext default).outcome = .ok result ∧
      result.text? = some w.render ∧
      Expression.HoldsOrFails
        (staffEvaluator.truthOf? (staffRow result.parameters) w.conditionOf?) := by
  obtain ⟨policy, t, s, hpolicy, ht, hs, hkind, hnone, hpaths, hrules, hgranted, result, w,
    hresult, -⟩ := exists_staffQuery
  have haccess : ∀ path type, (path, type) ∈ objectPaths staffEvaluator.mapping s →
      ∃ e, Accessible staffEvaluator policy .read staffContext default (staffRow []) path type e := by
    intro path type hpath
    rw [hpaths, List.mem_singleton] at hpath
    cases hpath
    exact ⟨0, rfl, ⟨staffDocument, by decide +kernel, rfl⟩, hgranted⟩
  have hholds : (staffEvaluator.truthOf? (staffRow []) s.condition?).outcome = .ok (some true) := by
    rw [hnone]
    rfl
  obtain ⟨w', -, hrendered, hkept⟩ := accessible_rows_are_kept rfl hpolicy ht hs hkind
    conforms_staff keepsProperties_staff (fun path type hpath r hr condition hcondition => by
      rw [hpaths, List.mem_singleton] at hpath
      cases hpath
      obtain ⟨hbindable, hfit⟩ := hrules r hr condition hcondition
      exact ⟨hbindable, hfit, fun h => by cases h⟩) haccess hholds hresult
  exact ⟨policy, t, s, result, w', hpolicy, ht, hs, hresult, hrendered, hkept⟩

/-- What is read from the text of a restricted query can lose a row of an accessible
document: the plus in front of `leading` is not written, and without it the word says
which side is trimmed. -/
theorem lost_row_of_accessible_object :
    let ev : Evaluator :=
      { world := ⟨[⟨"Document", none, [("sep", .string "x"), ("title", .string "xa")]⟩]⟩
        strategies := [.simple]
        mapping := { classes := [{ name := "Document", properties :=
          [⟨"sep", .basic⟩, ⟨"title", .basic⟩] }] } }
    let row : Environment :=
      .ofRow [("d", .entity 0), ("leading", .string "x")] [] [] default
    ∃ policy t s result text read, Policy.ofTexts ev.mapping
        ["GRANT READ ACCESS TO Document d"] = .ok policy ∧
      Phrase.ofText ("SELECT d FROM Document d JOIN d.sep leading " ++
        "WHERE TRIM(+leading FROM d.title) = 'a'") = .ok t ∧
      Statement.ofPhrase (some ev.mapping.model) t = .ok s ∧
      (ev.truthOf? row s.condition?).outcome = .ok (some true) ∧
      (askRules ev .anonymous default 0 (policy.rulesFor "Document" .read)).outcome = .ok true ∧
      (restrict ev policy s .read .anonymous default).outcome = .ok result ∧
      result.text? = some text ∧ result.parameters = [] ∧ Phrase.ofText text = .ok read ∧
      (ev.truthOf? row read.normalize.conditionOf?).outcome = .ok (some false) := by
  intro ev row
  have hfound : (Policy.ofTexts ev.mapping ["GRANT READ ACCESS TO Document d"]).toOption.any
      fun policy => (Phrase.ofText ("SELECT d FROM Document d JOIN d.sep leading " ++
          "WHERE TRIM(+leading FROM d.title) = 'a'")).toOption.any fun t =>
        (Statement.ofPhrase (some ev.mapping.model) t).toOption.any fun s =>
          (ev.truthOf? row s.condition?).outcome.toOption.any (fun b => b == some true) &&
          (askRules ev .anonymous default 0
            (policy.rulesFor "Document" .read)).outcome.toOption.any id &&
          (restrict ev policy s .read .anonymous default).outcome.toOption.any fun result =>
            result.parameters.isEmpty && result.text?.any fun text =>
              (Phrase.ofText text).toOption.any fun read =>
                (ev.truthOf? row read.normalize.conditionOf?).outcome.toOption.any
                  fun b => b == some false := by
    decide +kernel
  obtain ⟨policy, hpolicy, hfound⟩ := Query.Scope.ok_of_any hfound
  obtain ⟨t, ht, hfound⟩ := Query.Scope.ok_of_any hfound
  obtain ⟨s, hs, hfound⟩ := Query.Scope.ok_of_any hfound
  simp only [Bool.and_eq_true] at hfound
  obtain ⟨⟨hown, hasked⟩, hfound⟩ := hfound
  obtain ⟨b, hholds, hb⟩ := Query.Scope.ok_of_any hown
  obtain rfl := beq_iff_eq.mp hb
  obtain ⟨granted, hgranted, rfl⟩ := Query.Scope.ok_of_any hasked
  obtain ⟨result, hresult, hfound⟩ := Query.Scope.ok_of_any hfound
  obtain ⟨hempty, hfound⟩ := (Bool.and_eq_true _ _).mp hfound
  obtain ⟨text, htext, hfound⟩ := (Option.any_eq_true _ _).mp hfound
  obtain ⟨read, hread, hfound⟩ := Query.Scope.ok_of_any hfound
  obtain ⟨b, hlost, hb⟩ := Query.Scope.ok_of_any hfound
  obtain rfl := beq_iff_eq.mp hb
  exact ⟨policy, t, s, result, text, read, hpolicy, ht, hs, hholds, hgranted, hresult, htext,
    List.isEmpty_iff.mp hempty, hread, hlost⟩

end Restriction

end RowGuard
