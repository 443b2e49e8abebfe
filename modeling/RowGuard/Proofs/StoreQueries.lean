import RowGuard.Proofs.Checks
import RowGuard.Proofs.Compilation
import RowGuard.Proofs.Parameters
import RowGuard.Proofs.Positions
import RowGuard.Proofs.Soundness
import RowGuard.Session.Secure
import RowGuard.Store.Scripted

/-!
# What the store is asked

Three sorts of names meet in the query that a store gets: those of the user, those that a
restriction brings in for the security context, and those made for positions.  The names
of the restriction avoid the parameters of the query, what the user sets is only added
where the restriction has set nothing, and the names for positions avoid all of them.  So
nobody who asks can change a value that the restriction has bound, whichever names the
values come under.
-/

namespace RowGuard

open Query (Label Phrase Statement TypeModel)
open Query.Phrase
open Query.Grammar (Derives DerivesText)

/-! ## Placeholders of restricted statements -/

namespace Query

variable {l : Label} {t : Phrase}

theorem NormalForm.placeholders_splice (hl : l.isPlaceholder = false) :
    (splice l t).flatMap placeholders = t.placeholders := by
  unfold splice
  split
  · rename_i heq
    obtain ⟨m, cs, s⟩ := t
    cases heq
    exact (placeholders_of_not hl).symm
  · exact List.flatMap_singleton _ t

theorem NormalForm.placeholders_close (l : Label) (cs : List Phrase) (s : Source.Span) :
    (close l cs s).placeholders = (Phrase.node l cs s).placeholders := by
  have hsplice : ∀ {m : Label}, m.isPlaceholder = false →
      (Phrase.node m (cs.flatMap (splice m)) s).placeholders =
        (Phrase.node m cs s).placeholders := by
    intro m hm
    rw [placeholders_of_not hm, placeholders_of_not hm, List.flatMap_assoc]
    congr 1
    funext t
    exact placeholders_splice hm
  unfold close
  split
  · exact hsplice rfl
  · exact hsplice rfl
  · split
    · split
      · rw [placeholders_of_not rfl, List.flatMap_singleton]
      · rfl
    · rfl
  · rfl

mutual

/-- Normalising keeps all parameters in their order. -/
theorem Phrase.placeholders_normalize : ∀ t : Phrase, t.normalize.placeholders = t.placeholders
  | .node l cs s => by
      rw [Phrase.normalize, NormalForm.placeholders_close, placeholders_node, placeholders_node,
        placeholders_normalizeAll cs]

theorem Phrase.placeholders_normalizeAll : ∀ ts : List Phrase,
    (normalizeAll ts).flatMap placeholders = ts.flatMap placeholders
  | [] => rfl
  | t :: ts => by
      rw [normalizeAll, List.flatMap_cons, List.flatMap_cons, placeholders_normalize t,
        placeholders_normalizeAll ts]

end

theorem Phrase.placeholders_bracketed (t : Phrase) : t.bracketed.placeholders = t.placeholders := by
  unfold bracketed
  split
  · rfl
  · rw [build, placeholders_of_not rfl, List.flatMap_singleton]

theorem Phrase.placeholders_joined (hl : l.isPlaceholder = false) (ts : List Phrase) :
    (joined l ts).placeholders = ts.flatMap placeholders := by
  unfold joined
  split
  · exact (List.flatMap_singleton _ _).symm
  · exact placeholders_of_not hl

theorem Statement.placeholders_of_ofPhrase {model? : Option TypeModel} {s : Statement}
    (hs : Statement.ofPhrase model? t = .ok s) : s.phrase.placeholders = t.placeholders := by
  obtain ⟨definitions, subselects, heq⟩ := Statement.eq_assemble_of_ofPhrase hs
  rw [heq]
  exact placeholders_normalize t

end Query

namespace Restriction

variable {s : Statement} {found : List Phrase} {l : Label}

/-- A restriction keeps the parameters of a statement and adds those of what it asks for. -/
theorem mem_placeholders_addRestrictions (hs : s.condition? = s.phrase.conditionOf?)
    (hderives : DerivesText s.phrase) : l ∈ (addRestrictions s found).placeholders ↔
      l ∈ s.phrase.placeholders ∨ ∃ u ∈ found, l ∈ u.placeholders := by
  by_cases hne : found = []
  · subst hne
    simp [addRestrictions]
  obtain ⟨f, clause?, r, hadmits, hclause, hfill, heq⟩ := exists_addRestrictions hderives hne
  have hpresent : (s.condition?.map bracketed).toList.flatMap placeholders =
      clause?.toList.flatMap placeholders := by
    rw [hs, hfill, hadmits.conditionOf? hclause]
    cases clause? with
    | none => rfl
    | some w =>
        cases hclause w rfl
        simp [placeholders_bracketed, placeholders_node, Label.isPlaceholder, Phrase.children]
  have hdemands : (Phrase.node .whereClause [conjunction (demands s found)] r).placeholders =
      clause?.toList.flatMap placeholders ++ found.flatMap placeholders := by
    rw [placeholders_of_not rfl, List.flatMap_singleton, conjunction, placeholders_joined rfl,
      demands, List.flatMap_append, hpresent]
  rw [heq, hfill, Frame.fill, Frame.fill, placeholders_node, placeholders_node]
  simp only [List.flatMap_append, Option.toList_some, List.flatMap_singleton, hdemands,
    List.mem_append, ← List.mem_flatMap]
  tauto

/-- None of the parameters that are made for a restriction is taken. -/
theorem Restricted.fresh {ev : Evaluator} {policy : Policy} {kind : Query.AccessKind}
    {c : SecurityContext} {now : Timestamp} {taken before : List String}
    {paths : List (String × String)} {final : ContextParameters}
    (h : Restricted ev policy kind c now taken paths { taken := before } found final) :
    ∀ name ∈ final.values.names, name ∉ before := by
  have hbinds := h.binds (Q := fun _ _ _ _ => True) (fun p _ r _ => by
    rw [instantiate_eq]
    exact binds_bindContext _) (faithful_start c before)
  exact hbinds.1.fresh

section Restrict

variable {ev : Evaluator} {policy : Policy} {kind : Query.AccessKind} {c : SecurityContext}
  {now : Timestamp} {t u : Phrase} {r : RestrictedQuery}
  (hs : Statement.ofPhrase (some ev.mapping.model) t = .ok s)
  (hr : (restrict ev policy s kind c now).outcome = .ok r)
include hs hr

/-- None of the parameters that a restriction brings in is one of the query. -/
theorem fresh_of_restrict : ∀ name ∈ r.parameters.names, name ∉ t.namedParameters := by
  intro name hname hquery
  obtain ⟨definitions, subselects, heq⟩ := Query.Statement.eq_assemble_of_ofPhrase hs
  have hparameter : name ∈ s.parameters := by
    rw [heq]
    refine mem_sortedNames.mpr (mem_namedParameters.mpr ?_)
    rw [placeholders_normalize]
    exact mem_namedParameters.mp hquery
  rw [outcome_restrict] at hr
  split at hr
  · cases hr
  · cases hr
    cases hname
  · rename_i found final hsome
    cases hr
    exact (restrictions_eq_some hsome).fresh name hname hparameter

/-- What a restricted text is read as has all parameters of the query. -/
theorem placeholders_of_restrict {texts : List String} {source text : String}
    (hpolicy : Policy.ofTexts ev.mapping texts = .ok policy) (ht : Phrase.ofText source = .ok t)
    (htext : r.text? = some text)
    (hu : Phrase.ofText text = .ok u) : ∀ l ∈ t.placeholders, l ∈ u.placeholders := by
  obtain ⟨found, final, hrestricted, -, hrendered, -⟩ :=
    exists_rewritten hr (by rw [htext]; exact Option.some_ne_none text)
  have hcondition := Query.Statement.condition?_of_ofPhrase hs
  have hderives := Query.Statement.derivesText ht hs
  have hwritten : DerivesText (addRestrictions s found) :=
    derives_addRestrictions hcondition hderives (hrestricted.derives hpolicy ht hs)
  cases htext.symm.trans hrendered
  intro l hl
  rw [Query.Grammar.placeholders_reread hwritten hu,
    mem_placeholders_addRestrictions hcondition hderives,
    Query.Statement.placeholders_of_ofPhrase hs]
  exact Or.inl hl

end Restrict

end Restriction

/-! ## Parameters of the user -/

/-- Dropping bindings by their names keeps what the other names hold. -/
theorem Bindings.lookup_filter {γ : Type} {name : String} (p : String → Bool) (bs : Bindings γ)
    (hname : p name) : (bs.filter fun b => p b.1).lookup name = bs.lookup name := by
  induction bs with
  | nil => rfl
  | cons b bs ih =>
      rw [List.filter_cons]
      by_cases heq : name = b.1
      · rw [if_pos (heq ▸ hname), List.lookup_cons, List.lookup_cons, ih]
      · have hne : (name == b.1) = false := beq_false_of_ne heq
        rw [List.lookup_cons, hne]
        split
        · rw [List.lookup_cons, hne, ih]
        · exact ih

namespace RestrictedQuery

variable {r : RestrictedQuery} {more : Bindings Value} {name : String} {v : Value}

/-- Further parameters take no value away. -/
theorem extends_addParameters (r : RestrictedQuery) (more : Bindings Value) :
    r.parameters.Extends (r.addParameters more).parameters := by
  intro name v hv
  have hfirst : r.parameters.lookup name = some v := hv
  rw [addParameters, Bindings.find?, List.lookup_append, hfirst, Option.some_or]

/-- Where nothing was set, further parameters are what they are. -/
theorem find?_addParameters (hname : name ∉ r.parameters.names) :
    (r.addParameters more).parameters.find? name = more.find? name := by
  have hfree : r.parameters.find? name = none := Bindings.find?_eq_none hname
  have hopen : (!r.parameters.binds name) = true := by
    rw [Bindings.binds, hfree]
    rfl
  have hadded := Bindings.lookup_filter (fun n => !r.parameters.binds n) more hopen
  rw [Bindings.find?] at hfree ⊢
  rw [addParameters, List.lookup_append, hfree, Option.none_or, hadded, Bindings.find?]

/-- All names of both are among the names. -/
theorem mem_names_addParameters (h : name ∈ r.parameters.names ++ more.names) :
    name ∈ (r.addParameters more).parameters.names := by
  rw [addParameters, Bindings.names, List.map_append]
  rcases List.mem_append.mp h with h | h
  · exact List.mem_append_left _ h
  · cases hbinds : r.parameters.binds name with
    | true =>
        obtain ⟨v, hv⟩ := Option.isSome_iff_exists.mp hbinds
        exact List.mem_append_left _ (Bindings.mem_names_of_find? hv)
    | false =>
        obtain ⟨b, hb, rfl⟩ := List.mem_map.mp h
        refine List.mem_append_right _ (List.mem_map_of_mem (List.mem_filter.mpr ⟨hb, ?_⟩))
        rw [hbinds]
        rfl

end RestrictedQuery

/-! ## Queries at the store -/

namespace SecureSession

variable {s : SecureSession} {q : QueryRequest} {t u : Phrase} {r : RestrictedQuery}
  {name : Nat → String} {query : StoreQuery} {σ : Situation}

/-- How a query `t` reaches the store, if it is requested with `q` and restricted to `r`,
the text of which is read as `u`. -/
structure Hands (t : Phrase) (q : QueryRequest) (r : RestrictedQuery) (u : Phrase)
    (name : Nat → String) (query : StoreQuery) : Prop where
  /-- What the restriction has bound is bound to the same values. -/
  security : r.parameters.Extends query.parameters
  /-- Parameters of the query that the user has set have the values of the user. -/
  user : ∀ n ∈ t.namedParameters, ∀ v, q.named.find? n = some v →
    query.parameters.find? n = some v
  /-- The restricted query has all parameters of the query. -/
  named : ∀ n ∈ t.namedParameters, n ∈ u.namedParameters
  positions : ∀ index ∈ t.positionalParameters, index ∈ u.positionalParameters
  /-- The name of a position holds the value of the position. -/
  value : ∀ index ∈ u.positionalParameters, ∃ v,
    q.positional.lookup index = some v ∧ query.parameters.find? (name index) = some v
  /-- No two positions have one name. -/
  apart : ∀ index ∈ u.positionalParameters, ∀ other ∈ u.positionalParameters,
    name index = name other → index = other
  /-- The name of a position is no name of the restriction, of the user or of the query. -/
  own : ∀ index ∈ u.positionalParameters,
    name index ∉ r.parameters.names ++ q.named.names ++ u.namedParameters
  /-- The names stand where the positions stood. -/
  text : ∃ source, r.text? = some source ∧ Phrase.ofText source = .ok u ∧
    query.text = if u.positionalParameters = [] then source else (u.withNames name).render

/-- The query for the store, if the restriction brought in new names only and its text has
all parameters of the query. -/
theorem hands_of_storeQuery? (hfresh : ∀ n ∈ r.parameters.names, n ∉ t.namedParameters)
    (hretains : ∀ {source : String} {u : Phrase}, r.text? = some source →
      Phrase.ofText source = .ok u → ∀ l ∈ t.placeholders, l ∈ u.placeholders)
    (h : storeQuery? q r = .ok (some query)) : ∃ u name, Hands t q r u name query := by
  unfold storeQuery? at h
  cases htext : r.text? with
  | none =>
      rw [htext] at h
      cases h
  | some source =>
      rw [htext] at h
      obtain ⟨bound, hbound, h⟩ := Query.Scope.ok_of_bind h
      obtain ⟨text, hstored, rfl⟩ := Option.map_eq_some_iff.mp (Except.ok.inj h)
      have hsource : (r.addParameters q.named).text? = some source := htext
      obtain ⟨u, name, hu, hnames⟩ := RestrictedQuery.bindPositional_eq_ok hsource hbound
      have hall := hretains htext hu
      have hkept := (RestrictedQuery.extends_addParameters r q.named).trans hnames.kept
      refine ⟨u, name, hkept, fun n hn v hv => hnames.kept n v ?_, fun n hn => ?_,
        fun index hindex => ?_, hnames.value, hnames.apart, fun index hindex hmem => ?_,
        source, htext, hu, ?_⟩
      · rw [RestrictedQuery.find?_addParameters fun hset => hfresh n hset hn, hv]
      · exact mem_namedParameters.mpr (hall _ (mem_namedParameters.mp hn))
      · exact mem_positionalParameters.mpr (hall _ (mem_positionalParameters.mp hindex))
      · refine hnames.fresh index hindex ?_
        rcases List.mem_append.mp hmem with hmem | hmem
        · exact List.mem_append_left _ (RestrictedQuery.mem_names_addParameters hmem)
        · exact List.mem_append_right _ hmem
      · have hchosen := hnames.text
        rw [hstored, hsource] at hchosen
        split at hchosen
        · rw [if_pos ‹_›, Option.some.inj hchosen]
        · rw [if_neg ‹_›, Option.some.inj hchosen]

/-- What a query is restricted to comes from the checked statement of its text. -/
theorem exists_restrict (hσ : σ.Truthful s.guard)
    (h : ((s.restricted q).perform σ).1 = .ok r) : ∃ c statement w,
      s.guard.check q.text = .ok statement ∧
        (Restriction.restrict (s.guard.evaluator w) s.guard.policy statement .read c
          s.guard.now).outcome = .ok r := by
  unfold restricted Guard.restrict at h
  rw [Action.perform_bind, ContextProvider.perform_context] at h
  cases hcontext : s.guard.provider.contextFor σ.current? with
  | error e =>
      rw [hcontext] at h
      cases h
  | ok c =>
      rw [hcontext] at h
      simp only [Action.perform_bind] at h
      have houtcome : ((s.guard.statement q.text).perform σ).1 = s.guard.check q.text :=
        Guard.outcome_statement hσ
      rcases hstatement : (s.guard.statement q.text).perform σ with ⟨e | statement, τ⟩ <;>
        rw [hstatement] at h houtcome
      · cases h
      · exact ⟨c, statement, τ.world, houtcome.symm, h⟩

theorem exists_statement {g : Guard} {source : String} {statement : Statement}
    (h : g.check source = .ok statement) : ∃ t, Phrase.ofText source = .ok t ∧
      Statement.ofPhrase (some g.mapping.model) t = .ok statement := by
  unfold Guard.check at h
  obtain ⟨t, ht, hstatement⟩ := Query.Scope.ok_of_bind h
  exact ⟨t, ok_of_mapError ht, ok_of_mapError hstatement⟩

/-- A restricted query hands its names and positions over to the store. -/
theorem hands_of_restricted {texts : List String}
    (hpolicy : Policy.ofTexts s.guard.mapping texts = .ok s.guard.policy)
    (hσ : σ.Truthful s.guard) (hrestricted : ((s.restricted q).perform σ).1 = .ok r)
    (hquery : storeQuery? q r = .ok (some query)) :
    ∃ t u name, Phrase.ofText q.text = .ok t ∧ Hands t q r u name query := by
  obtain ⟨c, statement, w, hcheck, hr⟩ := exists_restrict hσ hrestricted
  obtain ⟨t, ht, hstatement⟩ := exists_statement hcheck
  have hs : Statement.ofPhrase (some (s.guard.evaluator w).mapping.model) t = .ok statement :=
    hstatement
  have hfresh : ∀ n ∈ r.parameters.names, n ∉ t.namedParameters :=
    Restriction.fresh_of_restrict hs hr
  have hretains : ∀ {source : String} {u : Phrase}, r.text? = some source →
      Phrase.ofText source = .ok u → ∀ l ∈ t.placeholders, l ∈ u.placeholders :=
    fun htext hu => Restriction.placeholders_of_restrict hs hr hpolicy ht htext hu
  obtain ⟨u, name, hhands⟩ := hands_of_storeQuery? hfresh hretains hquery
  exact ⟨t, u, name, ht, hhands⟩

/-- The store is asked for what a restricted query and the values of the user make, and for
nothing else. -/
theorem calls_results {τ : Situation} (h : (s.restricted q).perform σ = (.ok r, τ)) :
    ∃ asked : Option StoreQuery,
      ((s.results q).perform σ).2.calls = τ.calls ++ asked.toList.map .query ∧
      ∀ query ∈ asked, storeQuery? q r = .ok (some query) := by
  rw [results, Action.perform_bind_of_ok h, Action.perform_bind, Action.perform_ofOutcome]
  cases storeQuery? q r with
  | error e => exact ⟨none, (List.append_nil _).symm, nofun⟩
  | ok query? =>
    cases query? with
    | none => exact ⟨none, (List.append_nil _).symm, nofun⟩
    | some query =>
      refine ⟨some query, rfl, fun other hother => ?_⟩
      rw [hother]

/-- Whichever named and positional values a user gives, at most one call to the store
follows the restriction of a query.  It has every value that the restriction has bound and
the user's value for every other parameter of the query, and each position has become a
name that nothing else has, with the value of the position. -/
theorem results_bind_apart {texts : List String}
    (hpolicy : Policy.ofTexts s.guard.mapping texts = .ok s.guard.policy) (q : QueryRequest)
    (hσ : σ.Truthful s.guard) :
    ∃ asked : Option StoreQuery,
      ((s.results q).perform σ).2.calls =
        ((s.restricted q).perform σ).2.calls ++ asked.toList.map .query ∧
      ∀ query ∈ asked, ∃ t r u name, Phrase.ofText q.text = .ok t ∧
        ((s.restricted q).perform σ).1 = .ok r ∧ Hands t q r u name query := by
  cases hrestricted : (s.restricted q).perform σ with
  | mk outcome τ =>
    cases outcome with
    | error e =>
      rw [results, Action.perform_bind, hrestricted]
      exact ⟨none, (List.append_nil _).symm, nofun⟩
    | ok r =>
      obtain ⟨asked, hcalls, hasked⟩ := calls_results hrestricted
      refine ⟨asked, hcalls, fun query hquery => ?_⟩
      obtain ⟨t, u, name, ht, hhands⟩ :=
        hands_of_restricted hpolicy hσ (congrArg Prod.fst hrestricted) (hasked query hquery)
      exact ⟨t, r, u, name, ht, rfl, hhands⟩

/-- A session of alice in which documents are read by their owners. -/
def ownerSession (policy : Policy) : SecureSession where
  guard := {
    mapping := { classes :=
      [{ name := "Document", properties := [⟨"owner", .basic⟩, ⟨"level", .basic⟩] }] }
    policy, strategies := [.simple], remembersReads := false, now := default
    provider := .fixed { principal? := some (.string "alice") }
    store? := none }
  store := ({ default? := some [] } : StoreScript).store

def ownerTexts : List String :=
  ["GRANT READ ACCESS TO Document d WHERE d.owner = CURRENT_PRINCIPAL"]

/-- What a call to the store has under a name. -/
def parameterOf? (name : String) : StoreCall → Option Value
  | .query query => query.parameters.find? name
  | _ => none

/-- A request of someone who knows how names are made. -/
def knowingRequest : QueryRequest where
  text := "SELECT d FROM Document d WHERE d.level <> :cp0 AND d.level < ?1"
  named := [("cp0", .integer 3), ("cp1", .string "mallory"), ("positional_1", .integer 9)]
  positional := [(1, .integer 7)]

/-- Knowing the names does not help: the parameter of the restriction still holds alice, and
the position has moved on to another name. -/
theorem results_bind_apart_for_owner :
    ∃ policy query, Policy.ofTexts (ownerSession {}).guard.mapping ownerTexts = .ok policy ∧
      (((ownerSession policy).results knowingRequest).perform { world := ⟨[]⟩ }).2.calls =
        [.query query] ∧
      (query.parameters.find? "cp1").bind Value.string? = some "alice" ∧
      (query.parameters.find? "positional_1_").bind Value.integer? = some 7 ∧
      ∃ t r u name, Phrase.ofText knowingRequest.text = .ok t ∧
        Hands t knowingRequest r u name query := by
  have hfound : (Policy.ofTexts (ownerSession {}).guard.mapping ownerTexts).toOption.any
      fun policy =>
        let σ : Situation := { world := ⟨[]⟩ }
        (((ownerSession policy).restricted knowingRequest).perform σ).2.calls.isEmpty &&
        (((ownerSession policy).results knowingRequest).perform σ).2.calls.any fun call =>
          (parameterOf? "cp1" call).bind Value.string? = some "alice" ∧
            (parameterOf? "positional_1_" call).bind Value.integer? = some 7 := by
    decide +kernel
  obtain ⟨policy, hpolicy, hfound⟩ := Query.Scope.ok_of_any hfound
  have hcompiled : Policy.ofTexts (ownerSession policy).guard.mapping ownerTexts =
    .ok (ownerSession policy).guard.policy := hpolicy
  obtain ⟨asked, hcalls, hasked⟩ :=
    results_bind_apart hcompiled knowingRequest (σ := { world := ⟨[]⟩ }) nofun
  rw [Bool.and_eq_true, List.isEmpty_iff] at hfound
  rw [hfound.1, List.nil_append] at hcalls
  rw [hcalls] at hfound
  cases asked with
  | none => cases hfound.2
  | some query =>
    obtain ⟨t, r, u, name, ht, -, hhands⟩ := hasked query rfl
    obtain ⟨call, hcall, hholds⟩ := List.any_eq_true.mp hfound.2
    obtain ⟨hprincipal, hposition⟩ := of_decide_eq_true (List.mem_singleton.mp hcall ▸ hholds)
    exact ⟨policy, query, hpolicy, hcalls, hprincipal, hposition, t, r, u, name, ht, hhands⟩

end SecureSession

end RowGuard
