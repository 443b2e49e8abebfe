import RowGuard.Proofs.Closings
import RowGuard.Proofs.LegalQueries

/-!
# Queries to the store are queries

The text that the store is asked with is read as the statement that it was written
from.  The subselect that it was made from has passed the check in a scope of outer
aliases.  Where its joins are in order, the closed subselect refers to none of them,
so the statement passes in the empty scope just as well; otherwise a join starts at
an alias that is missing there.
-/

namespace RowGuard

open Query (AliasDefinition Label Phrase Statement StatementKind TypeModel)
open Query.Phrase
open Query.Scope
open Query.Grammar (Derives DerivesText LegalNames)

/-! ## Subselects as statements -/

theorem Query.Grammar.derives_of_mem_nodes {source : String} {t u : Phrase}
    (ht : Phrase.ofText source = .ok t ∨ Phrase.ruleOfText source = .ok t)
    (hu : u ∈ t.nodes ∨ u ∈ t.normalize.nodes) (hlabel : u.label = .subselect) :
    Derives .subselect u := by
  have hderives : DerivesText t :=
    ht.elim derivesText_of_ofText fun h => (derivesRule_of_ruleOfText h).1
  rcases hu with hu | hu
  · exact hderives.throughout common_subselects u hu hlabel
  · exact hderives.normalize.throughout common_subselects u hu hlabel

/-- What is a subselect is a statement under another label. -/
theorem Query.Grammar.Derives.derivesText_select {cs : List Phrase} {s : Source.Span}
    (h : Derives .subselect (.node .subselect cs s)) :
    DerivesText (.node .selectStatement cs s) := by
  cases h with
  | query s hselect hsource hrestriction hgrouping hhaving =>
      have horder : ∀ t ∈ (none : Option Phrase), Derives .orderByClause t := by simp
      simpa using DerivesText.selectStatement s hselect hsource hrestriction hgrouping hhaving horder

theorem Query.Statement.exists_ofPhrase_select_iff {model? : Option TypeModel}
    {cs : List Phrase} {s : Source.Span} :
    (∃ s', Statement.ofPhrase model? (.node .selectStatement cs s) = .ok s') ↔
      Accepts model? [] (Phrase.node .subselect cs s).normalize := by
  have hnormal : (Phrase.node .subselect cs s).normalize =
      .node .subselect (normalizeAll cs) s := rfl
  rw [hnormal, accepts_subselect]
  exact exists_statement_iff (t := .node .selectStatement (normalizeAll cs) s)

/-- A phrase without free names that is accepted in some scope is accepted in the empty one. -/
theorem Query.Phrase.Within.accepts_nowhere {m : Mapping} {outer : List AliasDefinition}
    {t : Phrase} (h : Within (· ∈ []) t) (ht : Accepts (some m.model) outer t) :
    Accepts (some m.model) [] t := by
  have hscopes : ScopesAgree False m (Link.bound (· ∈ [])) [] outer [] := by
    intro n x ws href
    obtain ⟨-, -, hfree⟩ := Refers.nil_iff.mp href
    cases hfree
  exact ((h.self (Nat.le_refl _)).check_agree hscopes).exists_ok ht

theorem nameless_closing (names : List String) : (Exchange.closing names).Nameless where
  atom h := by
    rcases h with rfl | ⟨name, -, -, rfl⟩
    · exact Or.inl rfl
    · exact Or.inr ⟨_, _, rfl, rfl⟩
  items h := h

/-- What a checked subselect declares, and the check of its clauses. -/
theorem Query.Statement.checked_of_ofSubselect {model? : Option TypeModel}
    {outer : List AliasDefinition} {u : Phrase} {s : Statement}
    (hs : Statement.ofSubselect model? outer u = .ok s) :
    s.phrase = u.normalize ∧ declarations model? .subselect outer s.phrase = .ok s.definitions ∧
      ∀ c ∈ s.phrase.children, declaresOnly c.label = true ∨
        Accepts model? (outer ++ s.definitions) c := by
  rw [ofSubselect, if_pos (label_of_ofSubselect hs)] at hs
  obtain ⟨ds, hds, hs⟩ := ok_of_bind hs
  obtain ⟨subselects, hclauses, hs⟩ := ok_of_bind hs
  cases hs
  exact ⟨rfl, hds, exists_checkClauses_iff.mp ⟨subselects, hclauses⟩⟩

/-- A checked subselect that the grammar derives is accepted where it was checked, and its
aliases are those that it declares. -/
theorem Query.Statement.accepts_of_ofSubselect {m : Mapping} {outer : List AliasDefinition}
    {u : Phrase} {s : Statement} (hderives : Derives .subselect s.phrase)
    (hs : Statement.ofSubselect (some m.model) outer u = .ok s) :
    Accepts (some m.model) outer s.phrase ∧ s.aliases = s.phrase.declaredAliases := by
  obtain ⟨-, hdeclared, hclauses⟩ := checked_of_ofSubselect hs
  have hwell : s.phrase.WellFormed := hderives.shapes
  generalize s.phrase = p at hderives hdeclared hclauses hwell
  cases hderives with
  | query s₃ hselect hsource hrestriction hgrouping hhaving =>
      refine ⟨accepts_subselect.mpr ⟨_, hdeclared, hclauses⟩, ?_⟩
      obtain ⟨distinct, cs, s₁, rfl, -⟩ := hselect.shapes
      obtain ⟨items, s₂, rfl, hitems⟩ := hsource.shapes
      exact names_declarations (fun r hr => (hitems r hr).1)
        (Query.Grammar.isJoin_of_isItem hitems) hdeclared

namespace Delegation

variable {m : Mapping} {evaluate : Phrase → Eval Value} {env : Environment}
  {outer : List AliasDefinition} {source : String} {t u statement : Phrase} {s : Statement}
  {parameters : Bindings Value}

/-- The statement for the store is the subselect closed. -/
theorem closed_of_standalone (hderives : Derives .subselect s.phrase)
    (haliases : s.aliases = s.phrase.declaredAliases)
    (h : (standalone evaluate env s).outcome = .ok (statement, parameters)) :
    ∃ clauses span, statement = .node .selectStatement clauses span ∧
      Closed [] s.phrase parameters.names (.node .subselect clauses span) := by
  unfold standalone at h
  rw [Traced.outcome_bind] at h
  obtain ⟨own, -, h⟩ := ok_of_bind h
  rw [Traced.outcome_bind] at h
  obtain ⟨⟨clauses, final⟩, hrun, h⟩ := ok_of_bind h
  cases h
  refine ⟨clauses, s.phrase.span, rfl, ?_⟩
  have hlabel : s.phrase = .node .subselect s.phrase.children s.phrase.span := by
    generalize s.phrase = p at hderives
    cases hderives
    rfl
  have hclose : ((close evaluate env [] s.phrase).run
      { taken := s.parameters, made := [], parameters := own }).outcome =
        .ok (.node .subselect clauses s.phrase.span, final) := by
    rw [hlabel, close_subselect, List.nil_append, ← hlabel, ← haliases, StateT.run_bind,
      Traced.outcome_bind, hrun]
    rfl
  exact (closes_of_within hderives.shapes hderives.legalNames hclose nofun).2.2 _
    (List.Subset.refl _)

/-- The text of a standalone query is read as a select statement, and what is read passes the
check exactly if the joins of the subselect are in order. -/
theorem exists_ofPhrase_standalone_iff
    (ht : Phrase.ofText source = .ok t ∨ Phrase.ruleOfText source = .ok t)
    (hu : u ∈ t.nodes ∨ u ∈ t.normalize.nodes)
    (hs : Statement.ofSubselect (some m.model) outer u = .ok s)
    (hstandalone : (standalone evaluate env s).outcome = .ok (statement, parameters))
    (hnames : ∀ name ∈ parameters.names, '$' ∉ name.toList)
    (hplain : statement.contains Query.Grammar.isMisread = false) :
    ∃ v, Phrase.ofText statement.render = .ok v ∧ v.label = .selectStatement ∧
      ((∃ s', Statement.ofPhrase (some m.model) v = .ok s') ↔ joinsInOrder [] s.phrase) := by
  obtain ⟨hphrase, -⟩ := Statement.checked_of_ofSubselect hs
  have hderives : Derives .subselect s.phrase := by
    have h := Query.Grammar.derives_of_mem_nodes ht hu (Statement.label_of_ofSubselect hs)
    exact hphrase ▸ h.normalize (P := fun _ => True) h.shapes
  obtain ⟨haccepts, haliases⟩ := Statement.accepts_of_ofSubselect hderives hs
  obtain ⟨clauses, span, rfl, hclosed⟩ := closed_of_standalone hderives haliases hstandalone
  have hselect : Derives .subselect (.node .subselect clauses span) :=
    hderives.allows (operative_closing hnames) hclosed.recast
  have hnormal : (Phrase.node .subselect clauses span).IsNormal :=
    hclosed.normal (hphrase ▸ isNormal_normalize u)
  have houter : Accepts (some m.model) outer (.node .subselect clauses span) :=
    hclosed.recast.accepts (nameless_closing _) haccepts
  obtain ⟨v, hread, hsame⟩ := (hselect.derivesText_select.reprints
    (Query.Grammar.plain_of_contains hplain)).1.read
  have hbare := (same_iff v _).mp hsame
  refine ⟨v, hread, ?_, ?_⟩
  · have hlabel := congrArg Phrase.label hbare
    rwa [label_bare, label_bare] at hlabel
  · rw [← Statement.exists_ofPhrase_bare, hbare, Statement.exists_ofPhrase_bare,
      Statement.exists_ofPhrase_select_iff, hnormal.normalize_eq, hclosed.within]
    constructor
    · rintro ⟨ss, hcheck⟩
      exact within_of_check (P := fun _ => True) hselect.shapes hcheck
    · exact fun hwithin => hwithin.accepts_nowhere houter

/-- The text of a standalone query is read, and what is read passes the check without an outer
scope, provided that no join starts outside at an alias that its own from clause declares
behind it, that the parameters have no names with a dollar sign, and that no trimming without a
side is printed in front of a word that is read as one. -/
theorem standalone_query_is_legal
    (ht : Phrase.ofText source = .ok t ∨ Phrase.ruleOfText source = .ok t)
    (hu : u ∈ t.nodes ∨ u ∈ t.normalize.nodes)
    (hs : Statement.ofSubselect (some m.model) outer u = .ok s)
    (hstandalone : (standalone evaluate env s).outcome = .ok (statement, parameters))
    (hjoins : joinsInOrder [] s.phrase)
    (hnames : ∀ name ∈ parameters.names, '$' ∉ name.toList)
    (hplain : statement.contains Query.Grammar.isMisread = false) :
    ∃ v s', Phrase.ofText statement.render = .ok v ∧ v.label = .selectStatement ∧
      Statement.ofPhrase (some m.model) v = .ok s' := by
  obtain ⟨v, hread, hlabel, hpasses⟩ :=
    exists_ofPhrase_standalone_iff ht hu hs hstandalone hnames hplain
  obtain ⟨s', hs'⟩ := hpasses.mpr hjoins
  exact ⟨v, s', hread, hlabel, hs'⟩

/-- A subselect of a rule with a join of its own, an outer path and the principal. -/
theorem standalone_query_is_legal_parent :
    let ev : Evaluator :=
      { world := ⟨[⟨"Folder", none, []⟩, ⟨"Document", none, [("folder", .entity 0)]⟩]⟩
        mapping := { classes := [
          { name := "Document", properties := [⟨"folder", .entity "Folder"⟩] },
          { name := "Folder", properties := [⟨"parent", .entity "Folder"⟩, ⟨"owner", .basic⟩] }] } }
    let env : Environment :=
      { aliases := [("d", .entity 1)], context? := some { principal? := some (.string "ann") }
        now := default }
    let text := "SELECT f FROM Folder f INNER JOIN f.parent p WHERE p = :outer_d " ++
      "AND p.owner = :current_principal"
    ∃ t u s statement parameters v s', Phrase.ruleOfText
        "GRANT READ ACCESS TO Document d WHERE EXISTS (SELECT f FROM Folder f JOIN f.parent p
          WHERE p = d.folder AND p.owner = CURRENT_PRINCIPAL)" = .ok t ∧
      u ∈ t.nodes ∧ Statement.ofSubselect (some ev.mapping.model) (env.scope ev.world) u = .ok s ∧
      (standalone (ev.value env) env s).outcome = .ok (statement, parameters) ∧
      statement.render = text ∧ Phrase.ofText text = .ok v ∧ v.label = .selectStatement ∧
      Statement.ofPhrase (some ev.mapping.model) v = .ok s' := by
  intro ev env text
  have hfound : (Phrase.ruleOfText
      "GRANT READ ACCESS TO Document d WHERE EXISTS (SELECT f FROM Folder f JOIN f.parent p
          WHERE p = d.folder AND p.owner = CURRENT_PRINCIPAL)").toOption.any fun t =>
      t.nodes.any fun u => (Statement.ofSubselect (some ev.mapping.model)
        (env.scope ev.world) u).toOption.any fun s => joinsInOrder [] s.phrase &&
          (standalone (ev.value env) env s).outcome.toOption.any fun p =>
            p.1.render == text && p.2.names.all (fun name => !name.toList.contains '$') &&
              !p.1.contains Query.Grammar.isMisread := by decide +kernel
  obtain ⟨t, ht, hfound⟩ := ok_of_any hfound
  obtain ⟨u, hu, hfound⟩ := List.any_eq_true.mp hfound
  obtain ⟨s, hs, hfound⟩ := ok_of_any hfound
  obtain ⟨hjoins, hfound⟩ := (Bool.and_eq_true _ _).mp hfound
  obtain ⟨⟨statement, parameters⟩, hstandalone, hfound⟩ := ok_of_any hfound
  simp only [Bool.and_eq_true, beq_iff_eq, Bool.not_eq_true', List.all_eq_true] at hfound
  obtain ⟨⟨htext, hnames⟩, hplain⟩ := hfound
  obtain ⟨v, s', hv, hlabel, hs'⟩ :=
    standalone_query_is_legal (Or.inr ht) (Or.inl hu) hs hstandalone hjoins
      (fun name hname => by simpa using hnames name hname) hplain
  exact ⟨t, u, s, statement, parameters, v, s', ht, hu, hs, hstandalone, htext, htext ▸ hv, hlabel,
    hs'⟩

/-- A join that starts at an outer alias and gives its own alias the same name: the alias counts
as declared inside, and the query for the store starts at what nothing declares. -/
theorem standalone_query_starts_outside :
    let ev : Evaluator :=
      { world := ⟨[⟨"Document", none, []⟩]⟩
        mapping := { classes := [
          { name := "Document", properties := [⟨"folder", .entity "Folder"⟩] },
          { name := "Folder" }] } }
    let env : Environment := { aliases := [("d", .entity 0)], now := default }
    let text := "SELECT f FROM Folder f INNER JOIN d.folder d WHERE d = f"
    ∃ t c u s statement parameters, Phrase.ofText
        "SELECT d FROM Document d WHERE EXISTS (SELECT f FROM Folder f JOIN d.folder d
          WHERE d = f)" = .ok t ∧
      Statement.ofPhrase (some ev.mapping.model) t = .ok c ∧
      u ∈ t.nodes ∧ Statement.ofSubselect (some ev.mapping.model) (env.scope ev.world) u = .ok s ∧
      (standalone (ev.value env) env s).outcome = .ok (statement, parameters) ∧
      statement.render = text ∧ ∀ v, Phrase.ofText text = .ok v →
        ∀ s', Statement.ofPhrase (some ev.mapping.model) v ≠ .ok s' := by
  intro ev env text
  have hfound : (Phrase.ofText
      "SELECT d FROM Document d WHERE EXISTS (SELECT f FROM Folder f JOIN d.folder d
          WHERE d = f)").toOption.any fun t =>
      (Statement.ofPhrase (some ev.mapping.model) t).toOption.any fun _ =>
        t.nodes.any fun u => (Statement.ofSubselect (some ev.mapping.model)
          (env.scope ev.world) u).toOption.any fun s =>
            (standalone (ev.value env) env s).outcome.toOption.any fun p =>
              p.1.render == text := by decide +kernel
  have hrejected : (Phrase.ofText text).toOption.all fun v =>
      (Statement.ofPhrase (some ev.mapping.model) v).toOption.isNone := by decide +kernel
  obtain ⟨t, ht, hfound⟩ := ok_of_any hfound
  obtain ⟨c, hc, hfound⟩ := ok_of_any hfound
  obtain ⟨u, hu, hfound⟩ := List.any_eq_true.mp hfound
  obtain ⟨s, hs, hfound⟩ := ok_of_any hfound
  obtain ⟨⟨statement, parameters⟩, hstandalone, htext⟩ := ok_of_any hfound
  refine ⟨t, c, u, s, statement, parameters, ht, hc, hu, hs, hstandalone, beq_iff_eq.mp htext, ?_⟩
  intro v hv s' hs'
  rw [hv] at hrejected
  simp only [Except.toOption, Option.all_some, hs'] at hrejected
  cases hrejected

end Delegation

end RowGuard
