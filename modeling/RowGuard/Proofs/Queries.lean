import RowGuard.Proofs.Rewriting

/-!
# Queries as they are read

The select list and the condition of a query that has been read and checked are
well-formed.  So what the select list exposes is always a reference to one of
the query's own aliases, and each path that is restricted is made of words.
-/

namespace RowGuard

open Query (Label Phrase Statement)
open Query.Phrase
open Query.Grammar (AreClauses IsBody IsSelect isTailClause)

/-! ## The shape of a query -/

theorem Query.Phrase.label_of_normalize {l : Label} {t : Phrase} (hatomic : l.isAtomic = false)
    (h : t.normalize.label = l) : t.label = l := by
  obtain ⟨m, cs, s⟩ := t
  rw [normalize] at h
  by_cases hbrackets : m = .brackets
  · subst hbrackets
    generalize normalizeAll cs = ts at h
    rcases ts with _ | ⟨u, _ | ⟨v, ts⟩⟩
    · exact h
    · simp only [Query.NormalForm.close] at h
      split at h
      · rename_i hchild
        rw [h, hatomic] at hchild
        cases hchild
      · exact h
    · exact h
  · have hclose : (Query.NormalForm.close m (normalizeAll cs) s).label = m := by
      cases m <;> first | rfl | exact absurd rfl hbrackets
    exact hclose.symm.trans h

/-- What a query is made of once it is in normal form. -/
structure IsQuery (t : Phrase) (cs rest : List Phrase) : Prop where
  clauses : ∃ distinct s₁ items s₂ s₃, t = .node .selectStatement
    (.node (.selectClause distinct) cs s₁ :: .node .fromClause items s₂ :: rest) s₃
  items : ∀ u ∈ cs, u.WellFormed
  rest : ∀ u ∈ rest, u.WellFormed

theorem isQuery_normalize {t : Phrase} (h : IsSelect t) :
    ∃ cs rest, IsQuery t.normalize cs rest := by
  obtain ⟨ts, s, rfl, distinct, cs, s₁, items, s₂, rest, rfl, hcs, -, hrest⟩ := h
  refine ⟨normalizeAll cs, normalizeAll rest, ⟨distinct, s₁, normalizeAll items, s₂, s, rfl⟩,
    fun u hu => ?_, fun u hu => ?_⟩
  · obtain ⟨v, hv, rfl⟩ := mem_normalizeAll.mp hu
    exact (hcs v hv).normalize
  · obtain ⟨v, hv, rfl⟩ := mem_normalizeAll.mp hu
    exact (hrest v hv).1.normalize

variable {model? : Option Query.TypeModel} {source : String} {t : Phrase} {s : Statement}

/-- A query that has been read and checked. -/
theorem Query.Statement.isQuery (ht : Phrase.ofText source = .ok t)
    (hs : Statement.ofPhrase model? t = .ok s) (hkind : s.kind = .select) :
    ∃ cs rest, IsQuery s.phrase cs rest := by
  have hlabel : t.normalize.label = .selectStatement := by
    unfold ofPhrase at hs
    simp only at hs
    split at hs
    · rename_i kind hlabel
      obtain ⟨definitions, -, hs⟩ := Query.Scope.ok_of_bind hs
      obtain ⟨subselects, -, hs⟩ := Query.Scope.ok_of_bind hs
      cases hs
      have hselect : kind = .select := hkind
      subst hselect
      generalize t.normalize.label = l at hlabel
      cases l <;> first | rfl | cases hlabel
    · cases hs
  obtain ⟨definitions, subselects, heq⟩ := eq_assemble_of_ofPhrase hs
  rw [heq]
  exact isQuery_normalize ((isStatement_of_ofText ht).select (label_of_normalize rfl hlabel))

/-! ## The select list -/

theorem Query.Phrase.Exposes.wellFormed {t u : Phrase} (h : Exposes t u) (ht : t.WellFormed) :
    u.WellFormed := by
  induction h with
  | self => exact ht
  | @inside l cs t u s hl hmem _ ih =>
      have hcompound : l.isCompound := by
        cases l <;> first | rfl | cases hl
      exact ih (ht.children hcompound _ hmem)

/-- A well-formed phrase with a dotted text is a reference. -/
theorem Query.Phrase.Within.isReference {P : String → Prop} {u : Phrase} {text : String}
    (hu : Within P u) (h : u.dotted? = some text) : ∃ x ws, u.IsReference x ws ∧ P x := by
  cases hu with
  | @reference _ _ n ws href hn => exact ⟨n, ws, href, hn⟩
  | @leaf _ l s hl =>
      have hnone : (Phrase.node l [] s).dotted? = none := by
        cases l <;> first | rfl | cases hl
      cases hnone.symm.trans h
  | subselect => cases h
  | @compound _ l ts s hcompound _ =>
      have hnone : (Phrase.node l ts s).dotted? = none := by
        cases l <;> first | rfl | cases hcompound
      cases hnone.symm.trans h

/-- Each path that is selected is made of words. -/
theorem Query.Statement.words_of_mem_selectedPaths (ht : Phrase.ofText source = .ok t)
    (hs : Statement.ofPhrase model? t = .ok s) (hkind : s.kind = .select) {selected : String}
    (h : selected ∈ s.selectedPaths) :
    ∃ x ws, selected = Text.Dotted.join (x :: ws) ∧ ∀ w ∈ x :: ws, IsWord w := by
  obtain ⟨u, ⟨clause, item, hclause, hitem, hu⟩, hselected⟩ := (mem_selectedPaths hs hkind).mp h
  obtain ⟨cs, rest, ⟨distinct, s₁, items, s₂, s₃, heq⟩, hcs, -⟩ := isQuery ht hs hkind
  have hfound : s.phrase.findChild? Label.isSelectClause =
      some (.node (.selectClause distinct) cs s₁) := by
    rw [heq]
    rfl
  obtain rfl := Option.some.inj (hfound.symm.trans hclause)
  obtain ⟨x, ws, href, -⟩ := (hu.wellFormed (hcs item hitem)).isReference hselected
  exact ⟨x, ws, Option.some.inj (hselected.symm.trans href.dotted?_eq), href.parts⟩

/-- What is restricted is a path of words behind an alias of the query. -/
theorem Restriction.words_of_mem_objectPaths {m : Mapping} (ht : Phrase.ofText source = .ok t)
    (hs : Statement.ofPhrase model? t = .ok s) (hkind : s.kind = .select) {path type : String}
    (h : (path, type) ∈ objectPaths m s) :
    (∀ w ∈ Text.Dotted.parts path, IsWord w) ∧ Text.Dotted.first path ∈ s.aliases := by
  obtain ⟨selected, hselected, hpath⟩ := mem_objectPaths.mp h
  obtain ⟨x, ws, rfl, hwords⟩ :=
    Query.Statement.words_of_mem_selectedPaths ht hs hkind hselected
  obtain ⟨d, own, hd, -, hbegins⟩ := objectPath?_eq_some.mp hpath
  obtain ⟨hfirst, hothers⟩ := Text.Dotted.parts_join_words hwords
  rw [hfirst] at hd hbegins
  rw [hothers] at hbegins
  obtain ⟨ps, hps, heq, -⟩ := longestPrefix_eq m x own ws []
  rw [show Text.Dotted.join [x] = x by simp [Text.Dotted.join], hbegins] at heq
  have hpath : path = Text.Dotted.join (x :: ps) := by simpa using heq
  have hshort : ∀ w ∈ x :: ps, IsWord w :=
    fun w hw => hwords w (List.cons_subset_cons x hps.subset hw)
  obtain ⟨hfirst', hothers'⟩ := Text.Dotted.parts_join_words hshort
  unfold Text.Dotted.parts
  rw [hpath, hfirst', hothers']
  refine ⟨hshort, ?_⟩
  have hfound : s.definitions.find? (fun d => d.name == x) = some d := hd
  have hname : d.name = x := by simpa using List.find?_some hfound
  exact hname ▸ List.mem_map_of_mem (List.mem_of_find?_eq_some hfound)

/-! ## The condition -/

theorem mem_sortedNames {names : List String} {name : String} :
    name ∈ Query.sortedNames names ↔ name ∈ names := by
  rw [Query.sortedNames, List.mem_mergeSort, List.mem_eraseDups]

theorem mem_nodes_of_conditionOf? {t condition : Phrase} (h : t.conditionOf? = some condition) :
    condition ∈ t.nodes := by
  obtain ⟨clause, hclause, hhead⟩ := Option.bind_eq_some_iff.mp h
  obtain ⟨l, cs, span⟩ := t
  obtain ⟨m, ds, span'⟩ := clause
  refine mem_nodes_of_child (List.mem_of_find?_eq_some hclause) ?_
  exact mem_nodes_of_child (List.mem_of_head? hhead) (mem_nodes_self condition)

/-- A statement has the parameters of its condition. -/
theorem Query.Statement.mem_parameters_of_condition (hs : Statement.ofPhrase model? t = .ok s)
    {condition : Phrase} (h : s.condition? = some condition) :
    ∀ n ∈ condition.nodes, ∀ name, n.label = .namedParameter name → name ∈ s.parameters := by
  rw [condition?_of_ofPhrase hs] at h
  intro n hn name hname
  obtain ⟨definitions, subselects, heq⟩ := eq_assemble_of_ofPhrase hs
  have hparameters : s.parameters = Query.sortedNames s.phrase.namedParameters := by
    rw [heq]
    rfl
  rw [hparameters, mem_sortedNames]
  refine List.mem_filterMap.mpr ⟨n, mem_nodes_trans (mem_nodes_of_conditionOf? h) hn, ?_⟩
  rw [hname]

/-- The condition of a query is well-formed, and the query has its parameters. -/
theorem Query.Statement.wellFormed_condition (ht : Phrase.ofText source = .ok t)
    (hs : Statement.ofPhrase model? t = .ok s) (hkind : s.kind = .select) {condition : Phrase}
    (h : s.condition? = some condition) : condition.WellFormed ∧
      ∀ n ∈ condition.nodes, ∀ name, n.label = .namedParameter name → name ∈ s.parameters := by
  refine ⟨?_, mem_parameters_of_condition hs h⟩
  rw [condition?_of_ofPhrase hs] at h
  obtain ⟨cs, rest, ⟨distinct, s₁, items, s₂, s₃, heq⟩, -, hrest⟩ := isQuery ht hs hkind
  rw [heq] at h
  obtain ⟨clause, hclause, hhead⟩ := Option.bind_eq_some_iff.mp h
  have hmem : clause ∈ rest := by
    have hfound := List.mem_of_find?_eq_some hclause
    have hlabel : clause.label = .whereClause := by simpa using List.find?_some hclause
    rcases List.mem_cons.mp hfound with rfl | hfound
    · cases hlabel
    · rcases List.mem_cons.mp hfound with rfl | hfound
      · cases hlabel
      · exact hfound
  have hlabel : clause.label = .whereClause := by simpa using List.find?_some hclause
  have hwell := hrest clause hmem
  obtain ⟨l, us, span⟩ := clause
  cases hlabel
  exact hwell.children rfl condition (List.mem_of_head? hhead)

end RowGuard
