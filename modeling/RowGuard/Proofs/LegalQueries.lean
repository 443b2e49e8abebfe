import RowGuard.Proofs.Acceptance
import RowGuard.Proofs.Exactness
import RowGuard.Proofs.NormalForms
import RowGuard.Proofs.Restatements
import RowGuard.Proofs.Transcription

/-!
# Restricted queries are queries

The text of a restricted query is read as the statement that it was written from,
and that statement passes the check.  What the query says itself has passed it, and
its conditions are those of rules, which have passed it with another alias in scope.
Where the path that takes the place of this alias has a type for which the condition
passes too, and no alias of the rule gets in the way, the condition passes in the
scope of the query.
-/

namespace RowGuard

open Query (AccessKind AliasDefinition Label Phrase Statement StatementKind TypeModel)
open Query.Phrase
open Query.Scope
open Query.Grammar (Derives DerivesText)

/-! ## Scopes -/

namespace Query.Scope

variable {model? : Option TypeModel} {outer declared ds : List AliasDefinition}

/-- What every step of a fold keeps is so in the end. -/
theorem foldlM_keeps {α β : Type} {P : β → Prop} {f : β → α → Checked β}
    (hstep : ∀ b a c, f b a = .ok c → P b → P c) {as : List α} {b c : β}
    (h : as.foldlM f b = .ok c) (hb : P b) : P c := by
  induction as generalizing b with
  | nil =>
      cases h
      exact hb
  | cons a as ih =>
      rw [List.foldlM_cons] at h
      obtain ⟨d, hd, h⟩ := ok_of_bind h
      exact ih h (hstep b a d hd hb)

theorem nodup_declare {d : AliasDefinition} {s : Source.Span}
    (h : declare declared d s = .ok ds) (hnodup : (names declared).Nodup) : (names ds).Nodup := by
  unfold declare at h
  rw [any_name_eq] at h
  split at h
  · cases h
  · rename_i hnew
    cases h
    rw [names_append]
    refine List.nodup_append.mpr ⟨hnodup, by simp [names], fun a ha b hb heq => hnew ?_⟩
    rw [heq, List.mem_singleton.mp hb] at ha
    exact decide_eq_true ha

/-- A statement declares each alias once. -/
theorem nodup_declarations {kind : StatementKind} {t : Phrase}
    (h : declarations model? kind outer t = .ok ds) : (names ds).Nodup := by
  obtain ⟨ranges, hranges, hjoins⟩ := ok_of_bind h
  refine foldlM_keeps (P := fun ds => (names ds).Nodup) (fun declared j ds hj hnodup => ?_) hjoins
    (foldlM_keeps (P := fun ds => (names ds).Nodup) (fun declared r ds hr hnodup => ?_) hranges
      (by simp [names]))
  · unfold declareJoin at hj
    split at hj
    · obtain ⟨type?, -, hj⟩ := ok_of_bind hj
      split at hj
      · cases hj
        exact hnodup
      · split at hj
        · cases hj
          exact hnodup
        · exact nodup_declare hj hnodup
    · cases hj
      exact hnodup
  · unfold declareRange at hr
    split at hr
    · cases hr
    · split at hr
      · cases hr
      · exact nodup_declare hr hnodup

/-- Where each alias is declared once, it does not matter from which end it is looked for. -/
theorem find?_eq_of_nodup {x : String} {d : AliasDefinition} (hnodup : (names ds).Nodup)
    (h : ds.find? (fun d => d.name == x) = some d) : Query.Scope.find? ds x = some d := by
  have hname : d.name = x := by simpa using List.find?_some h
  have hfind : Query.Scope.find? ([] ++ ds) d.name = some d :=
    find?_of_mem hnodup (List.mem_of_find?_eq_some h)
  rwa [List.nil_append, hname] at hfind

/-! ## Conditions put together -/

variable {model? : Option TypeModel} {scope : List AliasDefinition} {t : Phrase} {ts : List Phrase}

theorem accepts_bracketed (h : Accepts model? scope t) : Accepts model? scope t.bracketed := by
  unfold bracketed
  split
  · exact h
  · exact (accepts_compound rfl).mpr (by simpa using h)

theorem accepts_joined {l : Label} (hl : l.isCompound) (h : ∀ t ∈ ts, Accepts model? scope t) :
    Accepts model? scope (joined l ts) := by
  unfold joined
  split
  · exact h _ (by simp)
  · exact (accepts_compound hl).mpr h

theorem accepts_anyOf (h : ∀ t ∈ ts, Accepts model? scope t) :
    Accepts model? scope (Restriction.anyOf ts) := by
  refine accepts_bracketed (accepts_joined rfl fun u hu => ?_)
  obtain ⟨t, ht, rfl⟩ := List.mem_map.mp hu
  exact accepts_bracketed (h t ht)

end Query.Scope

/-! ## Conditions of rules -/

/-- The condition of a rule for a type passes for every class that objects of the type have,
since the text of the rule has a rule for each of them. -/
theorem Policy.accepts_condition {m : Mapping} {texts : List String} {policy : Policy}
    (h : Policy.ofTexts m texts = .ok policy) {type : String} {kind : AccessKind} {r : AccessRule}
    (hr : r ∈ policy.rulesForType m type kind) {condition : Phrase}
    (hcondition : r.condition? = some condition) {k : EntityClass}
    (hk : k ∈ m.concreteClasses type) :
    Accepts (some m.model) [.range r.subject k.name] condition := by
  obtain ⟨hmem, hcovers⟩ := covers_of_mem_rulesForType hr
  obtain ⟨r', hr', hposition⟩ := hcovers k hk
  obtain ⟨said, hsaid⟩ := says_of_ofTexts h
  obtain ⟨hsubject, hsame⟩ := hsaid.agree (mem_rules_of_rulesFor hr') hmem hposition
  have hname : r'.entityName = k.name :=
    beq_iff_eq.mp (Bool.and_eq_true_iff.mp (List.mem_filter.mp hr').2).1
  obtain ⟨rules, hrules, hpolicy⟩ := ok_of_bind h
  cases hpolicy
  obtain ⟨position, source, expanded, hexpanded, hr'⟩ :=
    exists_text hrules (mem_rules_of_rulesFor hr')
  rw [← hsubject, ← hname]
  exact (AccessRule.checked_condition hexpanded hr' (hsame.trans hcondition)).2

theorem nameless_parameters : Exchange.parameters.Nameless where
  atom h := by
    rcases h with rfl | ⟨-, name, rfl, -⟩
    · exact Or.inl rfl
    · exact Or.inr ⟨_, _, rfl, rfl⟩
  items h := h

namespace Restriction

variable {m : Mapping} {scope : List AliasDefinition} {taken : List String}
  {x a type own : String} {ps : List String} {d : AliasDefinition} {r : AccessRule}
  {condition : Phrase}

/-- The path that takes the place of a subject has the type of the subject. -/
theorem scopesAgree_placing (hd : Query.Scope.find? scope x = some d) (hown : d.type? = some own)
    (htypes : typeAlong m.model (some own) ps = some (some type)) :
    ScopesAgree False m (Link.placing a x ps) [] [.range a type] scope := by
  intro n y ws href
  obtain ⟨rfl, rfl, rfl⟩ := Refers.nil_iff.mp href
  refine Or.inr ⟨.range n type, d, by simp [Query.Scope.find?, AliasDefinition.range], hd,
    Or.inr (Or.inr rfl), Or.inr ⟨some type, ?_, TypesAgree.refl _⟩⟩
  rw [hown]
  exact htypes

/-- What it takes for the condition of a rule to pass the check in a query, with a path of a
type for its subject: the aliases of the rule mean the same beside those of the query, and
the condition passes for a subject of the type, as it does if objects can be of just this
type. -/
structure Suits (m : Mapping) (taken : List String) (type : String) (r : AccessRule)
    (condition : Phrase) : Prop where
  apart : ∃ i j, Corresponds (Link.renaming r.subject) i j [] condition
    (separate id taken condition).1
  ordered : DeclaredInOrder r.subject (separate id taken condition).1
  passes : (∃ k ∈ m.concreteClasses type, k.name = type) ∨
    Accepts (some m.model) [.range r.subject type] condition

/-- The condition of a rule passes in the scope of the path that takes the place of its
subject. -/
theorem Suits.accepts_placed (h : Suits m taken type r condition)
    (hpasses : Accepts (some m.model) [.range r.subject type] condition)
    (hsound : Query.Grammar.Sound condition) (hwords : ∀ w ∈ x :: ps, IsWord w) (hroot : x ∈ taken)
    (hd : Query.Scope.find? scope x = some d) (hown : d.type? = some own)
    (htypes : typeAlong m.model (some own) ps = some (some type)) :
    Accepts (some m.model) scope
      (substitute r.subject (ofDotted (Text.Dotted.join (x :: ps)))
        (separate id taken condition).1) := by
  obtain ⟨i, j, hapart⟩ := h.apart
  have hplaced := hapart.substitute (Link.places_renaming _ _ _) (isReference_ofDotted hwords)
    (by simp) (by simp) (notDeclared_separate hsound hroot) h.ordered
  exact (hplaced.check_agree (scopesAgree_placing (a := r.subject) hd hown htypes)).exists_ok
    hpasses

/-- So does what a rule puts into a query for the path. -/
theorem Puts.accepts {c : SecurityContext} {t : Phrase}
    (h : Puts c taken (Text.Dotted.join (x :: ps)) r t)
    (hplaced : ∀ condition, r.condition? = some condition → isUnbindable c condition = false →
      Accepts (some m.model) scope (substitute r.subject (ofDotted (Text.Dotted.join (x :: ps)))
        (separate id taken condition).1)) : Accepts (some m.model) scope t := by
  cases h with
  | granted => exact accepts_leaf rfl Source.Span.none
  | unbindable => exact accepts_alwaysFalse
  | bound hsome hbindable hrecast =>
      exact hrecast.accepts nameless_parameters (hplaced _ hsome hbindable)

end Restriction

/-! ## Checked statements -/

namespace Query.Statement

variable {model? : Option TypeModel} {t : Phrase} {s : Statement}

/-- What a checked statement declares, and the check of its clauses. -/
theorem checked_of_ofPhrase (hs : Statement.ofPhrase model? t = .ok s) :
    declarations model? s.kind [] s.phrase = .ok s.definitions ∧
      ∀ c ∈ s.phrase.children, declaresOnly c.label = true ∨ Accepts model? s.definitions c := by
  obtain ⟨-, hstatement⟩ := statement_of_ofPhrase hs
  obtain ⟨ds, hds, hclauses⟩ := exists_statement_iff.mp ⟨s, hstatement⟩
  obtain ⟨definitions, hdefinitions, h⟩ := ok_of_bind hstatement
  obtain ⟨subselects, -, h⟩ := ok_of_bind h
  obtain rfl : ds = definitions := Except.ok.inj (hds.symm.trans hdefinitions)
  have hds' : s.definitions = ds := by rw [← Except.ok.inj h]; rfl
  rw [hds']
  exact ⟨hds, by simpa using hclauses⟩

theorem isNormal_phrase (hs : Statement.ofPhrase model? t = .ok s) : s.phrase.IsNormal := by
  obtain ⟨definitions, subselects, heq⟩ := eq_assemble_of_ofPhrase hs
  rw [heq]
  exact isNormal_normalize t

/-- Checking the phrase of a checked statement gives the statement again. -/
theorem ofPhrase_phrase (hs : Statement.ofPhrase model? t = .ok s) :
    Statement.ofPhrase model? s.phrase = .ok s := by
  obtain ⟨hkind, hstatement⟩ := statement_of_ofPhrase hs
  unfold ofPhrase
  rw [(isNormal_phrase hs).normalize_eq]
  simp only [hkind]
  exact hstatement

end Query.Statement

/-- Closing a statement does nothing. -/
theorem Query.StatementKind.close_eq {l : Label} {kind : StatementKind}
    (h : StatementKind.ofLabel? l = some kind) (cs : List Phrase) (s : Source.Span) :
    NormalForm.close l cs s = .node l cs s := by
  cases l <;> first | rfl | cases h

/-- A frame of normal parts keeps them. -/
theorem Frame.normalize_fill {f : Frame} {kind : StatementKind}
    (hkind : StatementKind.ofLabel? f.label = some kind)
    (hnormal : ∀ u ∈ f.before ++ f.after, u.IsNormal) (clause : Phrase) :
    (f.fill (some clause)).normalize = f.fill (some clause.normalize) := by
  have hbefore := normalizeAll_of_isNormal fun u hu => hnormal u (List.mem_append_left _ hu)
  have hafter := normalizeAll_of_isNormal fun u hu => hnormal u (List.mem_append_right _ hu)
  rw [normalizeAll_eq_map] at hbefore hafter
  rw [fill, Phrase.normalize, StatementKind.close_eq hkind, normalizeAll_eq_map, List.map_append,
    List.map_append, hbefore, hafter]
  rfl

namespace Restriction

variable {model? : Option TypeModel} {t : Phrase} {s : Statement}

/-- The condition that a statement has passes in its scope. -/
theorem accepts_condition (hs : Statement.ofPhrase model? t = .ok s) {condition : Phrase}
    (h : s.condition? = some condition) : Accepts model? s.definitions condition := by
  rw [Statement.condition?_of_ofPhrase hs] at h
  obtain ⟨clause, hclause, hhead⟩ := Option.bind_eq_some_iff.mp h
  have hlabel : clause.label = .whereClause := by simpa using List.find?_some hclause
  have hchecked := (Statement.checked_of_ofPhrase hs).2 clause (List.mem_of_find?_eq_some hclause)
  obtain ⟨l, cs, span⟩ := clause
  cases hlabel
  exact (accepts_compound rfl).mp (hchecked.resolve_left Bool.false_ne_true) _
    (List.mem_of_head? hhead)

/-- A restricted statement passes the check if what is asked for passes in the scope of
the statement. -/
theorem exists_ofPhrase_addRestrictions (hs : Statement.ofPhrase model? t = .ok s)
    (hderives : DerivesText s.phrase) {found : List Phrase}
    (hfound : ∀ u ∈ found, Derives .primary u)
    (haccepts : ∀ u ∈ found, Accepts model? s.definitions u) :
    ∃ s', Statement.ofPhrase model? (addRestrictions s found) = .ok s' := by
  by_cases hne : found = []
  · subst hne
    exact ⟨s, Statement.ofPhrase_phrase hs⟩
  · obtain ⟨f, clause?, r, hadmits, hclause, hfill, hrestricted⟩ :=
      exists_addRestrictions hderives hne
    obtain ⟨hkind, -⟩ := Statement.statement_of_ofPhrase hs
    obtain ⟨hdeclared, hclauses⟩ := Statement.checked_of_ofPhrase hs
    have hnormal := Statement.isNormal_phrase hs
    rw [hfill] at hkind hdeclared hclauses hnormal
    have hparts : ∀ u ∈ f.before ++ f.after, u ∈ (f.fill clause?).children := by
      intro u hu
      simp only [Frame.fill, Phrase.children, List.mem_append] at hu ⊢
      exact hu.imp_right Or.inr
    have hdemands : ∀ u ∈ demands s found, Accepts model? s.definitions u := by
      intro u hu
      rcases List.mem_append.mp hu with hu | hu
      · obtain ⟨condition, hcondition, rfl⟩ := Option.map_eq_some_iff.mp (Option.mem_toList.mp hu)
        exact accepts_bracketed (accepts_condition hs hcondition)
      · exact haccepts u hu
    have hconjunction := Query.Grammar.derives_conjunction
      (derives_demands (Statement.condition?_of_ofPhrase hs) hderives hfound)
      fun h => hne (List.append_eq_nil_iff.mp h).2
    have hwhere : Derives .whereClause (.node .whereClause [conjunction (demands s found)] r) :=
      .whereClause r hconjunction
    have hpasses : Accepts model? s.definitions
        (Phrase.node .whereClause [conjunction (demands s found)] r).normalize :=
      hwhere.shapes.1.accepts_normalize ((accepts_compound rfl).mpr fun u hu => by
        rw [List.mem_singleton.mp hu]
        exact accepts_joined rfl hdemands)
    have hlabel : ∀ clause?, StatementKind.ofLabel? (f.fill clause?).label = some s.kind :=
      fun _ => hkind
    rw [hrestricted]
    unfold Statement.ofPhrase
    rw [Frame.normalize_fill hkind fun u hu => hnormal.child (hparts u hu)]
    simp only [hlabel]
    refine exists_statement_iff.mpr ⟨s.definitions, ?_, fun u hu => ?_⟩
    · rw [hadmits.declares model? [] hkind (by simpa using hwhere.normalize_where.shapes.2),
        ← hadmits.declares model? [] hkind fun w hw => (hclause w hw).shapes.2]
      exact hdeclared
    · simp only [Frame.fill, Phrase.children, Option.toList_some, List.mem_append,
        List.mem_singleton] at hu
      rcases hu with hu | rfl | hu
      · exact hclauses u (hparts u (List.mem_append_left _ hu))
      · exact Or.inr hpasses
      · exact hclauses u (hparts u (List.mem_append_right _ hu))

/-! ## Restricted queries -/

variable {ev : Evaluator} {policy : Policy} {kind : AccessKind} {c : SecurityContext}
  {now : Timestamp} {texts : List String} {source : String}

/-- Whatever a restriction asks for passes in the scope of the statement. -/
theorem Restricted.accepts (hpolicy : Policy.ofTexts ev.mapping texts = .ok policy)
    (ht : Phrase.ofText source = .ok t)
    (hs : Statement.ofPhrase (some ev.mapping.model) t = .ok s) {found : List Phrase}
    {final : ContextParameters}
    (h : Restricted ev policy kind c now (declaredAnywhere s) (objectPaths ev.mapping s)
      { taken := s.parameters } found final)
    (hsuits : ∀ p ∈ objectPaths ev.mapping s, ∀ r ∈ policy.rulesForType ev.mapping p.2 kind,
      (verdict ev c now r).outcome = .ok .depends → ∀ condition, r.condition? = some condition →
        isUnbindable c condition = false →
          Suits ev.mapping (declaredAnywhere s) p.2 r condition) :
    ∀ u ∈ found, Accepts (some ev.mapping.model) s.definitions u := by
  intro u hu
  obtain ⟨⟨path, type⟩, hp, cs, rfl, -, hmade⟩ := h.puts hpolicy ht hs u hu
  refine accepts_anyOf fun w hw => ?_
  obtain ⟨r, hr, hverdict, hputs⟩ := hmade w hw
  obtain ⟨x, ps, d, own, rfl, hx, hps, hd, hown, htypes⟩ := exists_legal_path ht hs hp
  have hwords : ∀ w ∈ x :: ps, IsWord w := List.forall_mem_cons.mpr
    ⟨Query.Grammar.isWord_of_isVariable hx, fun w hw => Query.Grammar.isWord_of_isName (hps w hw)⟩
  have hroot : x ∈ declaredAnywhere s := by
    have hname : d.name = x := by simpa using List.find?_some hd
    exact List.mem_append_left _ (hname ▸ List.mem_map_of_mem (List.mem_of_find?_eq_some hd))
  have hfind : Query.Scope.find? s.definitions x = some d :=
    find?_eq_of_nodup (nodup_declarations (Statement.checked_of_ofPhrase hs).1) hd
  refine hputs.accepts fun condition hcondition hbindable => ?_
  have hsuit := hsuits _ hp r hr hverdict condition hcondition hbindable
  have hsound := sound_of_mem_rules hpolicy (Policy.covers_of_mem_rulesForType hr).1 hcondition
  refine hsuit.accepts_placed ?_ hsound hwords hroot hfind hown htypes
  rcases hsuit.passes with ⟨k, hk, hname⟩ | hpasses
  · rw [← hname]
    exact Policy.accepts_condition hpolicy hr hcondition hk
  · exact hpasses

/-- The text of a restricted query is read, and what is read passes the check, provided that
the rules that it takes in suit it and that no trimming without a side is printed in front of
a word that is read as one. -/
theorem restricted_query_is_legal (hpolicy : Policy.ofTexts ev.mapping texts = .ok policy)
    (ht : Phrase.ofText source = .ok t)
    (hs : Statement.ofPhrase (some ev.mapping.model) t = .ok s) {result : RestrictedQuery}
    (hresult : (restrict ev policy s kind c now).outcome = .ok result) {text : String}
    (htext : result.text? = some text)
    (hsuits : ∀ p ∈ objectPaths ev.mapping s,
      ∀ r ∈ policy.rulesForType ev.mapping p.2 (effectiveKind s kind),
        (verdict ev c now r).outcome = .ok .depends → ∀ condition, r.condition? = some condition →
          isUnbindable c condition = false →
            Suits ev.mapping (declaredAnywhere s) p.2 r condition)
    (hplain : ∀ w, (rewritten ev policy s kind c now).outcome = .ok (some w) →
      w.contains Query.Grammar.isMisread = false) :
    ∃ u s', Phrase.ofText text = .ok u ∧
      Statement.ofPhrase (some ev.mapping.model) u = .ok s' := by
  obtain ⟨found, final, hrestricted, hrewritten, hrendered, -⟩ :=
    exists_rewritten hresult (by simp [htext])
  have hderives := Statement.derivesText ht hs
  have hfound := hrestricted.derives hpolicy ht hs
  have hprinted := derives_addRestrictions (Statement.condition?_of_ofPhrase hs) hderives hfound
  obtain ⟨u, hread, hsame⟩ := (hprinted.reprints
    (Query.Grammar.plain_of_contains (hplain _ hrewritten))).1.read
  obtain ⟨s', hs'⟩ := Statement.exists_ofPhrase_of_same hsame
    (exists_ofPhrase_addRestrictions hs hderives hfound
      (hrestricted.accepts hpolicy ht hs hsuits))
  obtain rfl := Option.some.inj (htext.symm.trans hrendered)
  exact ⟨u, s', hread, hs'⟩

/-- A query over the documents of the staff, restricted by a rule with an alias of its own. -/
theorem restricted_query_is_legal_staff :
    let text := "SELECT x FROM Document x WHERE (x.title <> 'draft') AND (x.title IN (:cr0) " ++
      "OR EXISTS (SELECT y FROM Document y WHERE TRIM(y.title) = x.title))"
    ∃ policy t s result u s', Policy.ofTexts staffEvaluator.mapping
        ["GRANT READ ACCESS TO Document d WHERE d.title IN (CURRENT_ROLES) OR EXISTS (
          SELECT y FROM Document y WHERE TRIM(y.title) = d.title)"] = .ok policy ∧
      Phrase.ofText "SELECT x FROM Document x WHERE x.title <> 'draft'" = .ok t ∧
      Statement.ofPhrase (some staffEvaluator.mapping.model) t = .ok s ∧
      (restrict staffEvaluator policy s .read staffContext default).outcome = .ok result ∧
      result.text? = some text ∧ Phrase.ofText text = .ok u ∧
      Statement.ofPhrase (some staffEvaluator.mapping.model) u = .ok s' := by
  intro text
  have hfound : (Policy.ofTexts staffEvaluator.mapping
      ["GRANT READ ACCESS TO Document d WHERE d.title IN (CURRENT_ROLES) OR EXISTS (
          SELECT y FROM Document y WHERE TRIM(y.title) = d.title)"]).toOption.any fun policy =>
      (Phrase.ofText "SELECT x FROM Document x WHERE x.title <> 'draft'").toOption.any fun t =>
        (Statement.ofPhrase (some staffEvaluator.mapping.model) t).toOption.any fun s =>
          decide (s.kind = .select ∧ objectPaths staffEvaluator.mapping s = [("x", "Document")]) &&
          (policy.rulesForType staffEvaluator.mapping "Document" .read).all (fun r =>
            r.condition?.all fun condition => decide (
              (r.subject :: declaredWithin condition).Nodup ∧
                ∀ a ∈ declaredWithin condition, a ∉ declaredAnywhere s)) &&
          (restrict staffEvaluator policy s .read staffContext default).outcome.toOption.any
            fun result => result.text? == some text &&
              (rewritten staffEvaluator policy s .read staffContext default).outcome.toOption.any
                fun w? => w?.all fun w => !w.contains Query.Grammar.isMisread := by
    decide +kernel
  obtain ⟨policy, hpolicy, hfound⟩ := ok_of_any hfound
  obtain ⟨t, ht, hfound⟩ := ok_of_any hfound
  obtain ⟨s, hs, hfound⟩ := ok_of_any hfound
  simp only [Bool.and_eq_true, decide_eq_true_eq, List.all_eq_true, Option.all_eq_true] at hfound
  obtain ⟨⟨⟨hkind, hpaths⟩, hrules⟩, hresult⟩ := hfound
  obtain ⟨result, hresult, hfound⟩ := ok_of_any hresult
  obtain ⟨htext, hfound⟩ := (Bool.and_eq_true _ _).mp hfound
  rw [beq_iff_eq] at htext
  obtain ⟨w?, hrewritten, hplain⟩ := ok_of_any hfound
  obtain ⟨u, s', hu, hs'⟩ := restricted_query_is_legal hpolicy ht hs hresult htext
    (fun p hp r hr _ condition hcondition _ => by
      rw [hpaths, List.mem_singleton] at hp
      subst hp
      rw [effectiveKind_select hkind] at hr
      obtain ⟨hdistinct, hfree⟩ := hrules r hr condition hcondition
      obtain ⟨said, hsaid⟩ := Policy.says_of_ofTexts hpolicy
      have hwithin := (hsaid.within (Policy.covers_of_mem_rulesForType hr).1).2 condition hcondition
      have hfits : Fits staffContext (declaredAnywhere s) r condition :=
        ⟨hdistinct, hfree, by simp [staffContext]⟩
      obtain ⟨happart, hordered, -⟩ := hfits.transfers hwithin
      exact ⟨happart, hordered, Or.inl ⟨staffDocument, by decide +kernel, rfl⟩⟩)
    (fun w hw => by
      obtain rfl := Except.ok.inj (hrewritten.symm.trans hw)
      simpa using hplain)
  exact ⟨policy, t, s, result, u, s', hpolicy, ht, hs, hresult, htext, hu, hs'⟩

/-- An alias that is named like a side is put behind a trimming without one, and the text that
comes out is not read. -/
theorem restricted_query_is_not_read :
    let m : Mapping := { classes := [{ name := "Document", properties := [⟨"title", .basic⟩] }] }
    let ev : Evaluator := { world := ⟨[]⟩, mapping := m, strategies := [.simple] }
    ∃ policy t s result text, Policy.ofTexts m
        ["GRANT READ ACCESS TO Document d WHERE TRIM(d.title) = 'a'"] = .ok policy ∧
      Phrase.ofText "SELECT leading FROM Document leading" = .ok t ∧
      Statement.ofPhrase (some m.model) t = .ok s ∧
      (restrict ev policy s .read .anonymous default).outcome = .ok result ∧
      result.text? = some text ∧
      text = "SELECT leading FROM Document leading WHERE (TRIM(leading.title) = 'a')" ∧
      ∀ u, Phrase.ofText text ≠ .ok u := by
  intro m ev
  have hfound : (Policy.ofTexts m
      ["GRANT READ ACCESS TO Document d WHERE TRIM(d.title) = 'a'"]).toOption.any fun policy =>
      (Phrase.ofText "SELECT leading FROM Document leading").toOption.any fun t =>
        (Statement.ofPhrase (some m.model) t).toOption.any fun s =>
          (restrict ev policy s .read .anonymous default).outcome.toOption.any fun result =>
            result.text? ==
              some "SELECT leading FROM Document leading WHERE (TRIM(leading.title) = 'a')" := by
    decide +kernel
  obtain ⟨policy, hpolicy, hfound⟩ := ok_of_any hfound
  obtain ⟨t, ht, hfound⟩ := ok_of_any hfound
  obtain ⟨s, hs, hfound⟩ := ok_of_any hfound
  obtain ⟨result, hresult, hfound⟩ := ok_of_any hfound
  have hunread : (Phrase.ofText
      "SELECT leading FROM Document leading WHERE (TRIM(leading.title) = 'a')").toOption.isNone := by
    decide +kernel
  refine ⟨policy, t, s, result, _, hpolicy, ht, hs, hresult, beq_iff_eq.mp hfound, rfl, ?_⟩
  intro u hu
  rw [hu] at hunread
  cases hunread

end Restriction

end RowGuard
