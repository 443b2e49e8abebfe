import RowGuard.Proofs.Recasting

/-!
# Names that statements see

Which names a statement may use is laid down here on the phrase itself.  The aliases that a
statement declares differ from each other.  Its clauses see all of them, its join paths see all
ranges but only the joins before them, and both see what is visible around the statement.  So
it is for each subselect inside.  Normalising a phrase changes nothing of this.
-/

namespace RowGuard

open Query (AliasDefinition Label Phrase Statement StatementKind TypeModel)
open Query.Phrase
open Query.Scope

/-! ## What a statement declares -/

namespace Query.Label

/-- The clauses of a statement that refer to names. -/
def isClause : Label → Bool
  | .selectClause _ | .setClause | .whereClause | .groupByClause | .havingClause
  | .orderByClause => true
  | _ => false

def isJoin : Label → Bool
  | .join _ _ => true
  | _ => false

end Query.Label

namespace Query.Phrase

/-- What a child of a statement says of its ranges. -/
def rangesSaid (c : Phrase) : List Phrase :=
  match c.label with
  | .fromClause => c.children
  | .updateClause | .deleteClause => [c]
  | _ => []

/-- The phrases that name a type and an alias for it, each with its joins. -/
def rangeItems (t : Phrase) : List Phrase :=
  match t.label with
  | .accessRule _ => [t]
  | _ => t.children.flatMap rangesSaid

def joinItems (t : Phrase) : List Phrase :=
  t.rangeItems.flatMap fun r => r.children.filter fun j => j.label.isJoin

/-- The aliases that a statement declares, the ranges before the joins. -/
def ownAliases (t : Phrase) : List String :=
  rangeAliases t.rangeItems ++ t.joinItems.filterMap declaredAlias?

def clauses (t : Phrase) : List Phrase := t.children.filter fun c => c.label.isClause

mutual

/-- Every name in a phrase is visible where it stands. -/
inductive IsScoped : List String → Phrase → Prop
  | name {visible : List String} {x : String} {cs : List Phrase} {s : Source.Span} :
      x ∈ visible → IsScoped visible (.node (.identifier x) cs s)
  | subselect {visible : List String} {cs : List Phrase} {s : Source.Span} :
      IsScopedStatement visible (.node .subselect cs s) →
        IsScoped visible (.node .subselect cs s)
  | parts {visible : List String} {l : Label} {cs : List Phrase} {s : Source.Span} :
      (∀ x, l ≠ .identifier x) → l ≠ .subselect → (∀ c ∈ cs, IsScoped visible c) →
        IsScoped visible (.node l cs s)

/-- The aliases of a statement differ, and every name in its clauses and join paths is
visible where it stands. -/
inductive IsScopedStatement : List String → Phrase → Prop
  | intro {visible : List String} {t : Phrase} : t.ownAliases.Nodup →
      (∀ before join after, t.joinItems = before ++ join :: after → ∀ path ∈ join.children.head?,
        IsScoped (visible ++ rangeAliases t.rangeItems ++ before.filterMap declaredAlias?) path) →
      (∀ c ∈ t.clauses, IsScoped (visible ++ t.ownAliases) c) →
        IsScopedStatement visible t

end

/-- The paths of joins see what is visible and the joins before them. -/
def JoinsScoped (visible : List String) (js : List Phrase) : Prop :=
  ∀ before join after, js = before ++ join :: after → ∀ path ∈ join.children.head?,
    IsScoped (visible ++ before.filterMap declaredAlias?) path

variable {visible : List String} {t u : Phrase} {ts : List Phrase}

theorem isScopedStatement_iff : IsScopedStatement visible t ↔ t.ownAliases.Nodup ∧
    JoinsScoped (visible ++ rangeAliases t.rangeItems) t.joinItems ∧
    ∀ c ∈ t.clauses, IsScoped (visible ++ t.ownAliases) c :=
  ⟨fun ⟨hnodup, hjoins, hclauses⟩ => ⟨hnodup, hjoins, hclauses⟩,
    fun ⟨hnodup, hjoins, hclauses⟩ => ⟨hnodup, hjoins, hclauses⟩⟩

theorem isScoped_identifier {x : String} {cs : List Phrase} {s : Source.Span} :
    IsScoped visible (.node (.identifier x) cs s) ↔ x ∈ visible := by
  constructor
  · intro h
    cases h with
    | name hx => exact hx
    | parts hname => exact absurd rfl (hname x)
  · exact .name

theorem isScoped_subselect {cs : List Phrase} {s : Source.Span} :
    IsScoped visible (.node .subselect cs s) ↔
      IsScopedStatement visible (.node .subselect cs s) := by
  constructor
  · intro h
    cases h with
    | subselect h => exact h
    | parts _ hsubselect => exact absurd rfl hsubselect
  · exact .subselect

theorem isScoped_node {l : Label} (hname : ∀ x, l ≠ .identifier x) (hsubselect : l ≠ .subselect)
    {cs : List Phrase} {s : Source.Span} :
    IsScoped visible (.node l cs s) ↔ ∀ c ∈ cs, IsScoped visible c := by
  constructor
  · intro h
    cases h with
    | name => exact absurd rfl (hname _)
    | subselect => exact absurd rfl hsubselect
    | parts _ _ h => exact h
  · exact .parts hname hsubselect

theorem isScoped_compound {l : Label} (hl : l.isCompound) {cs : List Phrase} {s : Source.Span} :
    IsScoped visible (.node l cs s) ↔ ∀ c ∈ cs, IsScoped visible c := by
  apply isScoped_node
  · rintro x rfl
    cases hl
  · rintro rfl
    cases hl

theorem isScoped_leaf {l : Label} (hl : l.isLeaf) (s : Source.Span) :
    IsScoped visible (.node l [] s) := by
  refine .parts ?_ ?_ (by simp)
  · rintro x rfl
    cases hl
  · rintro rfl
    cases hl

theorem isScoped_segments {ws : List String} (h : AreSegments ts ws) :
    ∀ c ∈ ts, IsScoped visible c := by
  induction h with
  | nil => simp
  | cons span _ _ ih =>
      exact List.forall_mem_cons.mpr ⟨.parts (by simp) (by simp) (by simp), ih⟩

/-- A path is scoped if its root is. -/
theorem isScoped_reference {x : String} {ws : List String} (ht : t.IsReference x ws) :
    IsScoped visible t ↔ x ∈ visible := by
  cases ht with
  | name => exact isScoped_identifier
  | @path _ w segments ws rootSpan span _ hsegments =>
      rw [isScoped_node (by simp) (by simp), List.forall_mem_cons, isScoped_identifier]
      exact and_iff_left (isScoped_segments hsegments)

/-! ## Normal forms -/

theorem isScoped_spliced {l : Label} (hl : l.isCompound) :
    (∀ c ∈ ts.flatMap (NormalForm.splice l), IsScoped visible c) ↔
      ∀ t ∈ ts, IsScoped visible t := by
  have hsplice : ∀ t : Phrase, (∀ c ∈ NormalForm.splice l t, IsScoped visible c) ↔
      IsScoped visible t := by
    rintro ⟨m, cs, s⟩
    unfold NormalForm.splice
    split
    · rename_i hlabel
      obtain rfl : m = l := hlabel
      exact (isScoped_compound hl).symm
    · exact List.forall_mem_singleton
  simp only [List.mem_flatMap, forall_exists_index, and_imp]
  constructor
  · exact fun h t ht => (hsplice t).mp fun c hc => h c t ht hc
  · exact fun h c t ht hc => (hsplice t).mpr (h t ht) c hc

theorem isScoped_close {l : Label} (hl : l.isCompound) (s : Source.Span) :
    IsScoped visible (NormalForm.close l ts s) ↔ ∀ t ∈ ts, IsScoped visible t := by
  unfold NormalForm.close
  split
  · rw [isScoped_compound rfl, isScoped_spliced rfl]
  · rw [isScoped_compound rfl, isScoped_spliced rfl]
  · split
    · split
      · exact List.forall_mem_singleton.symm
      · exact isScoped_compound rfl
    · exact isScoped_compound rfl
  · exact isScoped_compound hl

/-- A child of a statement that declares something is left as it is.  The others are clauses,
whose names mean the same in the normal form. -/
def KeepsNames (c : Phrase) : Prop :=
  c.label.isClause = false ∧ c.label.isJoin = false ∧ c.normalize = c ∨
    c.label.isClause = true ∧
      ∀ visible, IsScoped visible c.normalize ↔ IsScoped visible c

theorem label_normalize_of_isClause (h : t.label.isClause) : t.normalize.label = t.label := by
  obtain ⟨l, cs, s⟩ := t
  rw [Phrase.normalize]
  cases l <;> first | rfl | cases h

theorem rangesSaid_of_isClause (h : t.label.isClause) : t.rangesSaid = [] := by
  unfold rangesSaid
  cases hl : t.label <;> rw [hl] at h <;> first | rfl | cases h

theorem KeepsNames.label_normalize (h : t.KeepsNames) : t.normalize.label = t.label := by
  rcases h with ⟨-, -, heq⟩ | ⟨hclause, -⟩
  · rw [heq]
  · exact label_normalize_of_isClause hclause

section Normalize

variable {l : Label} {cs : List Phrase} {s : Source.Span} (hcs : ∀ c ∈ cs, c.KeepsNames)

include hcs in
theorem clauses_normalize :
    (Phrase.node l (cs.map normalize) s).clauses = (Phrase.node l cs s).clauses.map normalize := by
  have hlabel : ∀ c ∈ cs, c.normalize.label.isClause = c.label.isClause := fun c hc => by
    rw [(hcs c hc).label_normalize]
  rw [clauses, clauses, children, children, List.filter_map]
  exact congrArg _ (List.filter_congr hlabel)

include hcs in
theorem declaredAlias?_normalize :
    (Phrase.node l (cs.map normalize) s).declaredAlias? = (Phrase.node l cs s).declaredAlias? := by
  rw [declaredAlias?, declaredAlias?, child?, child?, children, children, List.getElem?_map]
  cases hc : cs[1]? with
  | none => rfl
  | some c =>
      have hlabel := (hcs c (List.mem_of_getElem? hc)).label_normalize
      rw [Option.map_some, Option.bind_some, Option.bind_some, identifier?, identifier?, hlabel]

include hcs in
theorem filter_isJoin_eq_nil : (cs.map normalize).filter (fun j => j.label.isJoin) = [] ∧
    cs.filter (fun j => j.label.isJoin) = [] := by
  have hnone : ∀ c ∈ cs, c.label.isJoin = false := by
    intro c hc
    rcases hcs c hc with ⟨-, hjoin, -⟩ | ⟨hclause, -⟩
    · exact hjoin
    · cases hlabel : c.label <;> rw [hlabel] at hclause <;> first | rfl | cases hclause
  constructor
  · rw [List.filter_eq_nil_iff]
    intro u hu
    obtain ⟨c, hc, rfl⟩ := List.mem_map.mp hu
    rw [(hcs c hc).label_normalize, hnone c hc]
    exact Bool.false_ne_true
  · rw [List.filter_eq_nil_iff]
    intro c hc
    rw [hnone c hc]
    exact Bool.false_ne_true

include hcs in
/-- What a statement declares it declares in its normal form. -/
theorem rangeItems_normalize :
    rangeAliases (Phrase.node l (cs.map normalize) s).rangeItems =
        rangeAliases (Phrase.node l cs s).rangeItems ∧
      (Phrase.node l (cs.map normalize) s).joinItems = (Phrase.node l cs s).joinItems := by
  by_cases hrule : ∃ kinds, l = .accessRule kinds
  · obtain ⟨kinds, rfl⟩ := hrule
    have hranges : ∀ ds, (Phrase.node (.accessRule kinds) ds s).rangeItems =
        [.node (.accessRule kinds) ds s] := fun _ => rfl
    obtain ⟨hjoins, hjoins'⟩ := filter_isJoin_eq_nil hcs
    have halias := declaredAlias?_normalize (l := .accessRule kinds) (s := s) hcs
    refine ⟨?_, by simp [joinItems, hranges, children, hjoins, hjoins']⟩
    simp only [hranges, rangeAliases, List.filterMap_cons, halias]
  · have hranges : ∀ ds, (Phrase.node l ds s).rangeItems = ds.flatMap rangesSaid := by
      intro ds
      cases l <;> first | rfl | exact absurd ⟨_, rfl⟩ hrule
    have hsame : (Phrase.node l (cs.map normalize) s).rangeItems =
        (Phrase.node l cs s).rangeItems := by
      rw [hranges, hranges, List.flatMap_map]
      refine List.flatMap_congr fun c hc => ?_
      rcases hcs c hc with ⟨-, -, heq⟩ | ⟨hclause, -⟩
      · rw [heq]
      · rw [rangesSaid_of_isClause hclause, rangesSaid_of_isClause]
        rw [label_normalize_of_isClause hclause]
        exact hclause
    rw [joinItems, joinItems, hsame]
    exact ⟨rfl, rfl⟩

include hcs in
theorem isScopedStatement_normalize :
    IsScopedStatement visible (.node l (cs.map normalize) s) ↔
      IsScopedStatement visible (.node l cs s) := by
  obtain ⟨hranges, hjoins⟩ := rangeItems_normalize (l := l) (s := s) hcs
  have hclauses : ∀ c ∈ (Phrase.node l cs s).clauses, ∀ visible,
      IsScoped visible c.normalize ↔ IsScoped visible c := by
    intro c hc visible
    obtain ⟨hc, hclause⟩ := List.mem_filter.mp hc
    rcases hcs c hc with ⟨hnone, -⟩ | ⟨-, hscoped⟩
    · cases hnone.symm.trans hclause
    · exact hscoped visible
  rw [isScopedStatement_iff, isScopedStatement_iff, ownAliases, ownAliases, hranges, hjoins,
    clauses_normalize hcs, List.forall_mem_map]
  refine and_congr_right fun _ => and_congr_right fun _ => ?_
  exact forall₂_congr fun c hc => hclauses c hc _

end Normalize

theorem keepsNames_clause {l : Label} (hclause : l.isClause) (hl : l.isCompound)
    {cs : List Phrase} {s : Source.Span}
    (h : ∀ c ∈ cs, ∀ visible, IsScoped visible c.normalize ↔ IsScoped visible c) :
    (Phrase.node l cs s).KeepsNames := by
  refine Or.inr ⟨hclause, fun visible => ?_⟩
  rw [Phrase.normalize, isScoped_close hl, isScoped_compound hl, normalizeAll_eq_map,
    List.forall_mem_map]
  exact forall₂_congr fun c hc => h c hc visible

/-- Names are visible in a phrase if they are in its normal form. -/
theorem Within.isScoped_normalize {P : String → Prop} (h : Within P t) :
    ∀ visible, IsScoped visible t.normalize ↔ IsScoped visible t := by
  induction h with
  | reference ht _ => exact fun _ => by rw [ht.normalize_eq]
  | leaf s hl => exact fun _ => by rw [normalize_leaf]
  | @subselect P cs items rest distinct s₁ s₂ s₃ hitems hjoins _ _ hfinal hselect hrest =>
      intro visible
      have hsame := normalizeAll_items hitems (Query.Grammar.isJoin_of_joinsWithin hjoins)
      rw [Phrase.normalize, normalizeAll_eq_map]
      refine isScoped_subselect.trans ((isScopedStatement_normalize ?_).trans
        isScoped_subselect.symm)
      refine List.forall_mem_cons.mpr ⟨keepsNames_clause rfl rfl hselect,
        List.forall_mem_cons.mpr ⟨Or.inl ⟨rfl, rfl, ?_⟩, fun c hc => Or.inr ⟨?_, hrest c hc⟩⟩⟩
      · rw [Phrase.normalize, hsame]
        rfl
      · have hlabel := hfinal c hc
        cases hl : c.label <;> rw [hl] at hlabel <;> first | rfl | cases hlabel
  | compound s hl _ ih =>
      intro visible
      rw [Phrase.normalize, isScoped_close hl, isScoped_compound hl, normalizeAll_eq_map,
        List.forall_mem_map]
      exact forall₂_congr fun c hc => ih c hc visible

end Query.Phrase

end RowGuard
