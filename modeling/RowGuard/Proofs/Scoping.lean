import RowGuard.Proofs.LegalQueries
import RowGuard.Proofs.Visibility

/-!
# What the check of names asks for

The check declares the ranges of a statement, then its joins one after the other, and goes
through its clauses, and so it does for the subselects that it meets.  It passes only if each
name is visible where it stands and the aliases of each statement differ.  A model makes it ask
for more, but without one it asks for nothing else.
-/

namespace RowGuard

open Query (AliasDefinition Label Phrase Statement StatementKind TypeModel)
open Query.Phrase
open Query.Scope

/-! ## What the check declares -/

namespace Query.Scope

variable {model? : Option TypeModel} {outer scope declared ds : List AliasDefinition}

theorem exists_find?_iff {x : String} : (∃ d, find? scope x = some d) ↔ x ∈ names scope := by
  refine ⟨fun ⟨d, hd⟩ => mem_names_of_find? hd, fun hx => ?_⟩
  obtain ⟨d, hd, hname⟩ := List.mem_map.mp hx
  rw [← Option.isSome_iff_exists, find?, List.find?_isSome]
  exact ⟨d, List.mem_reverse.mpr hd, by simpa using hname⟩

theorem exists_typeOf_of_mem_names {t : Phrase} {x : String} {ws : List String}
    (ht : t.IsReference x ws) (scope : List AliasDefinition) (hx : x ∈ names scope) :
    ∃ type?, typeOf none scope t = .ok type? := by
  obtain ⟨span, behind, heq, hbehind⟩ := typeOf_eq_bind none scope ht
  obtain ⟨d, hd⟩ := exists_find?_iff.mpr hx
  refine ⟨none, ?_⟩
  rw [heq, resolve, hd]
  exact hbehind rfl d

theorem declare_of_notMem {d : AliasDefinition} (s : Source.Span) (h : d.name ∉ names declared) :
    declare declared d s = .ok (declared ++ [d]) := by
  have hnew : (declared.any fun e => e.name == d.name) = false := by
    rw [any_name_eq]
    exact decide_eq_false h
  rw [declare, hnew, if_neg Bool.false_ne_true]

/-- A phrase that starts with the name of a type and an alias, behind which joins may stand. -/
inductive DeclaresRange : Phrase → Prop
  | intro (l : Label) (e a : String) (rest : List Phrase) (s₁ s₂ s₃ : Source.Span) :
      (∀ j ∈ rest, j.IsJoin ∨ j.label.isJoin = false) →
        DeclaresRange (.node l (.node (.entityName e) [] s₁ :: .node (.identifier a) [] s₂ :: rest)
          s₃)

theorem names_foldlM_declareRange {kind : StatementKind} {rs : List Phrase}
    (hrs : ∀ r ∈ rs, DeclaresRange r)
    (h : rs.foldlM (declareRange model? kind) declared = .ok ds) :
    names ds = names declared ++ rangeAliases rs := by
  refine names_foldlM (fun r hr declared ds h => ?_) h
  obtain ⟨l, e, a, rest, s₁, s₂, s₃, -⟩ := hrs r hr
  exact names_declareRange h

/-- Without a model ranges are declared if their aliases are new. -/
theorem exists_foldlM_declareRange (kind : StatementKind) (declared : List AliasDefinition)
    {rs : List Phrase}
    (hrs : ∀ r ∈ rs, DeclaresRange r) (hnodup : (names declared ++ rangeAliases rs).Nodup) :
    ∃ ds, rs.foldlM (declareRange none kind) declared = .ok ds := by
  induction rs generalizing declared with
  | nil => exact ⟨declared, rfl⟩
  | cons r rs ih =>
      obtain ⟨l, e, a, rest, s₁, s₂, s₃, -⟩ := hrs _ List.mem_cons_self
      have hsplit : rangeAliases (Phrase.node l (.node (.entityName e) [] s₁
          :: .node (.identifier a) [] s₂ :: rest) s₃ :: rs) = a :: rangeAliases rs := rfl
      rw [hsplit] at hnodup
      have hnew : a ∉ names declared := fun ha =>
        (List.nodup_append.mp hnodup).2.2 a ha a List.mem_cons_self rfl
      obtain ⟨ds, hds⟩ := ih (declared ++ [.range a e])
        (fun u hu => hrs u (List.mem_cons_of_mem _ hu)) (by
          rw [names_append, List.append_assoc]
          exact hnodup)
      refine ⟨ds, ?_⟩
      rw [List.foldlM_cons, declareRange_eq, if_neg (by simp), declare_of_notMem _ hnew]
      exact hds

theorem joinsScoped_cons {visible : List String} {j : Phrase} {js : List Phrase} :
    JoinsScoped visible (j :: js) ↔ (∀ path ∈ j.children.head?, IsScoped visible path) ∧
      JoinsScoped (visible ++ [j].filterMap declaredAlias?) js := by
  constructor
  · intro h
    constructor
    · intro path hpath
      have hfirst := h [] j js rfl path hpath
      rwa [List.filterMap_nil, List.append_nil] at hfirst
    · intro before join after hjs path hpath
      have hlater := h (j :: before) join after (by rw [hjs]; rfl) path hpath
      rwa [← List.singleton_append, List.filterMap_append, ← List.append_assoc] at hlater
  · rintro ⟨hfirst, hlater⟩ before join after hjs path hpath
    cases before with
    | nil =>
        obtain ⟨rfl, rfl⟩ := List.cons.inj hjs
        rw [List.filterMap_nil, List.append_nil]
        exact hfirst path hpath
    | cons k before =>
        obtain ⟨rfl, rfl⟩ := List.cons.inj hjs
        rw [← List.singleton_append, List.filterMap_append, ← List.append_assoc]
        exact hlater before join after rfl path hpath

theorem declareJoin_bare (isOuter fetch : Bool) (p : Phrase) (s : Source.Span) :
    declareJoin model? outer declared (.node (.join isOuter fetch) [p] s) =
      typeOf model? (outer ++ declared) p >>= fun _ => .ok declared := rfl

theorem declareJoin_named (isOuter fetch : Bool) (p : Phrase) (a : String) (s r : Source.Span) :
    declareJoin model? outer declared
        (.node (.join isOuter fetch) [p, .node (.identifier a) [] r] s) =
      typeOf model? (outer ++ declared) p >>= fun type? => declare declared
        { name := a, type?, joinPath? := p.dotted?, inner := !isOuter, fetch } r := rfl

/-- A join that is fetched only declares no alias. -/
theorem filterMap_bare_join (isOuter fetch : Bool) (p : Phrase) (s : Source.Span) :
    [Phrase.node (.join isOuter fetch) [p] s].filterMap declaredAlias? = [] := rfl

theorem scoped_of_declareJoins {js : List Phrase} (hjs : ∀ j ∈ js, j.IsJoin)
    (h : js.foldlM (declareJoin model? outer) declared = .ok ds) :
    names ds = names declared ++ js.filterMap declaredAlias? ∧
      JoinsScoped (names outer ++ names declared) js := by
  induction js generalizing declared with
  | nil =>
      cases h
      exact ⟨(List.append_nil _).symm, by simp [JoinsScoped]⟩
  | cons j js ih =>
      rw [List.foldlM_cons] at h
      obtain ⟨more, hj, h⟩ := ok_of_bind h
      obtain ⟨hnames, hscoped⟩ := ih (fun k hk => hjs k (List.mem_cons_of_mem j hk)) h
      cases hjs j List.mem_cons_self with
      | bare isOuter fetch s hp =>
          obtain ⟨type?, htype, hj⟩ := ok_of_bind hj
          cases hj
          have hroot := mem_names_of_typeOf hp htype
          rw [names_append] at hroot
          refine ⟨hnames, joinsScoped_cons.mpr ⟨?_, ?_⟩⟩
          · rintro _ ⟨⟩
            exact (isScoped_reference hp).mpr hroot
          · rwa [filterMap_bare_join, List.append_nil]
      | @named p n a ws isOuter fetch s r hp ha =>
          obtain ⟨type?, htype, hj⟩ := ok_of_bind hj
          have hroot := mem_names_of_typeOf hp htype
          rw [names_append] at hroot
          have hdeclared := names_declare hj
          rw [hdeclared] at hnames hscoped
          rw [← List.append_assoc] at hscoped
          refine ⟨by rw [hnames, List.append_assoc]; rfl, joinsScoped_cons.mpr ⟨?_, hscoped⟩⟩
          rintro _ ⟨⟩
          exact (isScoped_reference hp).mpr hroot

/-- Without a model joins are declared if their aliases are new and their paths are scoped. -/
theorem exists_foldlM_declareJoin (outer declared : List AliasDefinition) {js : List Phrase}
    (hjs : ∀ j ∈ js, j.IsJoin)
    (hnodup : (names declared ++ js.filterMap declaredAlias?).Nodup)
    (hscoped : JoinsScoped (names outer ++ names declared) js) :
    ∃ ds, js.foldlM (declareJoin none outer) declared = .ok ds := by
  induction js generalizing declared with
  | nil => exact ⟨declared, rfl⟩
  | cons j js ih =>
      obtain ⟨hpath, hscoped⟩ := joinsScoped_cons.mp hscoped
      cases hjs j List.mem_cons_self with
      | @bare p n ws isOuter fetch s hp =>
          obtain ⟨type?, htype⟩ := exists_typeOf_of_mem_names hp (outer ++ declared) (by
            rw [names_append]
            exact (isScoped_reference hp).mp (hpath _ rfl))
          rw [filterMap_bare_join, List.append_nil] at hscoped
          obtain ⟨ds, hds⟩ := ih declared
            (fun k hk => hjs k (List.mem_cons_of_mem _ hk)) hnodup hscoped
          exact ⟨ds, by rw [List.foldlM_cons, declareJoin_bare, htype]; exact hds⟩
      | @named p n a ws isOuter fetch s r hp ha =>
          obtain ⟨type?, htype⟩ := exists_typeOf_of_mem_names hp (outer ++ declared) (by
            rw [names_append]
            exact (isScoped_reference hp).mp (hpath _ rfl))
          have hsplit : names declared ++ (Phrase.node (.join isOuter fetch)
              [p, .node (.identifier a) [] r] s :: js).filterMap declaredAlias? =
                names declared ++ a :: js.filterMap declaredAlias? := rfl
          rw [hsplit] at hnodup
          have hnew : a ∉ names declared := fun ha =>
            (List.nodup_append.mp hnodup).2.2 a ha a List.mem_cons_self rfl
          let d : AliasDefinition :=
            { name := a, type?, joinPath? := p.dotted?, inner := !isOuter, fetch }
          obtain ⟨ds, hds⟩ := ih (declared ++ [d])
            (fun k hk => hjs k (List.mem_cons_of_mem _ hk))
            (by rw [names_append, List.append_assoc]; exact hnodup)
            (by rw [names_append, ← List.append_assoc]; exact hscoped)
          refine ⟨ds, ?_⟩
          rw [List.foldlM_cons, declareJoin_named, htype]
          simp only [bind, Except.bind] at hds ⊢
          rw [declare_of_notMem (d := d) r hnew]
          exact hds

/-! ## What the check accepts -/

/-- A phrase with the parts of a statement of a kind. -/
structure Declares (kind : StatementKind) (t : Phrase) : Prop where
  ranges : ranges kind t = t.rangeItems
  items : ∀ r ∈ t.rangeItems, DeclaresRange r
  clauses : ∀ c ∈ t.children, declaresOnly c.label = !c.label.isClause

theorem foldlM_filter_isJoin (js : List Phrase) :
    (js.filter fun j => j.label.isJoin).foldlM (declareJoin model? outer) declared =
      js.foldlM (declareJoin model? outer) declared := by
  induction js generalizing declared with
  | nil => rfl
  | cons j js ih =>
      cases hj : j.label.isJoin with
      | true =>
          rw [List.filter_cons, if_pos hj, List.foldlM_cons, List.foldlM_cons]
          simp only [ih]
      | false =>
          have hskip : declareJoin model? outer declared j = .ok declared := by
            unfold declareJoin
            split
            · rename_i hlabel _
              rw [hlabel] at hj
              cases hj
            · rfl
          rw [List.filter_cons, if_neg (by simp [hj]), ih, List.foldlM_cons, hskip]
          rfl

namespace Declares

variable {kind : StatementKind} {t : Phrase} (h : Declares kind t)

include h

theorem joinItems_eq : t.joinItems = (t.rangeItems.flatMap fun r => r.children.drop 2).filter
    fun j => j.label.isJoin := by
  rw [joinItems, List.filter_flatMap]
  refine List.flatMap_congr fun r hr => ?_
  obtain ⟨l, e, a, rest, s₁, s₂, s₃, -⟩ := h.items r hr
  rfl

theorem isJoin : ∀ j ∈ t.joinItems, j.IsJoin := by
  intro j hj
  rw [h.joinItems_eq] at hj
  obtain ⟨hj, hlabel⟩ := List.mem_filter.mp hj
  obtain ⟨r, hr, hj⟩ := List.mem_flatMap.mp hj
  obtain ⟨l, e, a, rest, s₁, s₂, s₃, hrest⟩ := h.items r hr
  exact (hrest j hj).resolve_right (by simp [hlabel])

theorem declarations_eq : declarations model? kind outer t =
    t.rangeItems.foldlM (declareRange model? kind) [] >>= fun declared =>
      t.joinItems.foldlM (declareJoin model? outer) declared := by
  rw [declarations, h.ranges, h.joinItems_eq]
  simp only [foldlM_filter_isJoin]

theorem forall_clauses_iff {p : Phrase → Prop} :
    (∀ c ∈ t.children, declaresOnly c.label = true ∨ p c) ↔ ∀ c ∈ t.clauses, p c := by
  simp only [Query.Phrase.clauses, List.mem_filter, and_imp]
  refine forall₂_congr fun c hc => ?_
  rw [h.clauses c hc]
  cases c.label.isClause <;> simp

/-- What a check has declared and accepted is scoped, if this is so for the clauses. -/
theorem isScopedStatement {ds : List AliasDefinition}
    (hclauses : ∀ c ∈ t.clauses, ∀ scope, Accepts model? scope c → IsScoped (names scope) c)
    (hds : declarations model? kind outer t = .ok ds)
    (haccepts : ∀ c ∈ t.children, declaresOnly c.label = true ∨ Accepts model? (outer ++ ds) c) :
    IsScopedStatement (names outer) t := by
  have hnodup := nodup_declarations hds
  rw [h.declarations_eq] at hds
  obtain ⟨declared, hranges, hjoins⟩ := ok_of_bind hds
  have hdeclared := names_foldlM_declareRange h.items hranges
  obtain ⟨hnames, hscoped⟩ := scoped_of_declareJoins h.isJoin hjoins
  rw [show names ([] : List AliasDefinition) = [] from rfl, List.nil_append] at hdeclared
  rw [hdeclared] at hnames hscoped
  rw [isScopedStatement_iff, ownAliases, ← hnames]
  refine ⟨hnodup, hscoped, fun c hc => ?_⟩
  rw [← names_append]
  exact hclauses c hc _ (h.forall_clauses_iff.mp haccepts c hc)

/-- A scoped statement is declared and accepted without a model, if its clauses are. -/
theorem accepts_of_isScopedStatement (outer : List AliasDefinition)
    (hclauses : ∀ c ∈ t.clauses, ∀ scope, IsScoped (names scope) c → Accepts none scope c)
    (hscoped : IsScopedStatement (names outer) t) :
    ∃ ds, declarations none kind outer t = .ok ds ∧
      ∀ c ∈ t.children, declaresOnly c.label = true ∨ Accepts none (outer ++ ds) c := by
  obtain ⟨hnodup, hpaths, hscoped⟩ := isScopedStatement_iff.mp hscoped
  obtain ⟨declared, hranges⟩ := exists_foldlM_declareRange kind [] h.items
    (List.nodup_append.mp hnodup).1
  have hdeclared := names_foldlM_declareRange h.items hranges
  rw [show names ([] : List AliasDefinition) = [] from rfl, List.nil_append] at hdeclared
  obtain ⟨ds, hjoins⟩ := exists_foldlM_declareJoin outer declared h.isJoin
    (by rwa [hdeclared]) (by rwa [hdeclared])
  have hnames := (scoped_of_declareJoins h.isJoin hjoins).1
  refine ⟨ds, by rw [h.declarations_eq, hranges]; exact hjoins, ?_⟩
  refine h.forall_clauses_iff.mpr fun c hc => hclauses c hc _ ?_
  rw [names_append, hnames, hdeclared]
  exact hscoped c hc

end Declares

theorem declaresOnly_of_isClause {l : Label} (h : l.isClause) : declaresOnly l = false := by
  cases l <;> first | rfl | cases h

/-- A select clause, a from clause and more clauses are the parts of a query. -/
theorem declares_body {kind : StatementKind} {l : Label}
    (hkind : kind = .select ∧ l = .selectStatement ∨ kind = .subselect ∧ l = .subselect)
    {distinct : Bool} {cs items rest : List Phrase} {s₁ s₂ s₃ : Source.Span}
    (hitems : ∀ r ∈ items, Query.Grammar.IsItem r) (hrest : ∀ c ∈ rest, c.label.isClause) :
    Declares kind (.node l (.node (.selectClause distinct) cs s₁
      :: .node .fromClause items s₂ :: rest) s₃) := by
  have hsaid : (Phrase.node (.selectClause distinct) cs s₁ :: .node .fromClause items s₂
      :: rest).flatMap rangesSaid = items := by
    have hnone : rest.flatMap rangesSaid = [] :=
      List.flatMap_eq_nil_iff.mpr fun c hc => rangesSaid_of_isClause (hrest c hc)
    rw [List.flatMap_cons, List.flatMap_cons, hnone, List.append_nil]
    rfl
  have hranges : (Phrase.node l (.node (.selectClause distinct) cs s₁
      :: .node .fromClause items s₂ :: rest) s₃).rangeItems = items := by
    rcases hkind with ⟨-, rfl⟩ | ⟨-, rfl⟩ <;> exact hsaid
  refine ⟨?_, fun r hr => ?_, ?_⟩
  · rw [hranges]
    rcases hkind with ⟨rfl, rfl⟩ | ⟨rfl, rfl⟩ <;> rfl
  · rw [hranges] at hr
    obtain ⟨hrange, hjoins⟩ := hitems r hr
    obtain ⟨a, e, js, r₁, r₂, r₃, -⟩ := hrange
    exact .intro _ e a js r₁ r₂ r₃ fun j hj => Or.inl (hjoins j hj)
  · refine List.forall_mem_cons.mpr ⟨rfl, List.forall_mem_cons.mpr ⟨rfl, fun c hc => ?_⟩⟩
    rw [declaresOnly_of_isClause (hrest c hc), hrest c hc]
    rfl

theorem isClause_of_isFinalClause {l : Label} (h : l.isFinalClause) : l.isClause := by
  cases l <;> first | rfl | cases h

theorem mem_clauses_body {l : Label} {distinct : Bool} {cs items rest : List Phrase}
    {s₁ s₂ s₃ : Source.Span} {c : Phrase} (hc : c ∈ (Phrase.node l (.node (.selectClause distinct)
      cs s₁ :: .node .fromClause items s₂ :: rest) s₃).clauses) :
    c = .node (.selectClause distinct) cs s₁ ∨ c ∈ rest := by
  obtain ⟨hc, hclause⟩ := List.mem_filter.mp hc
  rcases List.mem_cons.mp hc with rfl | hc
  · exact Or.inl rfl
  · rcases List.mem_cons.mp hc with rfl | hc
    · cases hclause
    · exact Or.inr hc

theorem declares_subselect {P : String → Prop} {distinct : Bool} {cs items rest : List Phrase}
    {s₁ s₂ s₃ : Source.Span} (hitems : ∀ r ∈ items, r.IsRange)
    (hjoins : JoinsWithin P (rangeAliases items) (joinsOf items))
    (hfinal : ∀ c ∈ rest, c.label.isFinalClause) :
    Declares .subselect (.node .subselect (.node (.selectClause distinct) cs s₁
      :: .node .fromClause items s₂ :: rest) s₃) := by
  have hjoin := Query.Grammar.isJoin_of_joinsWithin hjoins
  refine declares_body (Or.inr ⟨rfl, rfl⟩) (fun r hr => ⟨hitems r hr, fun j hj => ?_⟩)
    fun c hc => isClause_of_isFinalClause (hfinal c hc)
  exact hjoin j (List.mem_flatMap.mpr ⟨r, hr, hj⟩)

theorem mem_names_of_accepts {t : Phrase} {x : String} {ws : List String}
    (ht : t.IsReference x ws) (h : Accepts model? scope t) : x ∈ names scope := by
  cases ht with
  | name => exact exists_find?_iff.mp (accepts_identifier.mp h)
  | path rootSpan span hx hsegments =>
      obtain ⟨⟨type?, htype⟩, -⟩ := accepts_path.mp h
      exact mem_names_of_typeOf (.path rootSpan span hx hsegments) htype

theorem isPathPart_of_mem_segments {ts : List Phrase} {ws : List String} (h : AreSegments ts ws) :
    ∀ t ∈ ts, isPathPart t.label = true := by
  induction h with
  | nil => simp
  | cons _ _ _ ih => exact List.forall_mem_cons.mpr ⟨rfl, ih⟩

theorem accepts_of_mem_names {t : Phrase} {x : String} {ws : List String}
    (ht : t.IsReference x ws) (h : x ∈ names scope) : Accepts none scope t := by
  cases ht with
  | name => exact accepts_identifier.mpr (exists_find?_iff.mpr h)
  | path rootSpan span hx hsegments =>
      refine accepts_path.mpr
        ⟨exists_typeOf_of_mem_names (.path rootSpan span hx hsegments) scope h, ?_⟩
      exact List.forall_mem_cons.mpr
        ⟨Or.inl rfl, fun c hc => Or.inl (isPathPart_of_mem_segments hsegments c hc)⟩

end Query.Scope

namespace Query.Phrase

variable {model? : Option TypeModel} {P : String → Prop} {t : Phrase}

/-- The names in a phrase that is accepted are visible. -/
theorem Within.isScoped_of_accepts (h : Within P t) :
    ∀ scope, Accepts model? scope t → IsScoped (names scope) t := by
  induction h with
  | reference ht _ =>
      intro scope haccepts
      exact (isScoped_reference ht).mpr (mem_names_of_accepts ht haccepts)
  | leaf s hl => exact fun _ _ => isScoped_leaf hl s
  | subselect distinct s₁ s₂ s₃ hitems hjoins _ _ hfinal hselect hrest =>
      intro scope haccepts
      obtain ⟨ds, hds, haccepts⟩ := accepts_subselect.mp haccepts
      refine isScoped_subselect.mpr ((declares_subselect hitems hjoins hfinal).isScopedStatement
        (fun c hc scope hc' => ?_) hds haccepts)
      rcases mem_clauses_body hc with rfl | hc
      · refine (isScoped_compound rfl).mpr fun u hu => hselect u hu scope ?_
        exact (accepts_compound rfl).mp hc' u hu
      · exact hrest c hc scope hc'
  | compound s hl _ ih =>
      exact fun scope h => (isScoped_compound hl).mpr fun c hc =>
        ih c hc scope ((accepts_compound hl).mp h c hc)

/-- Without a model a phrase is accepted if the names in it are visible. -/
theorem Within.accepts_of_isScoped (h : Within P t) :
    ∀ scope, IsScoped (names scope) t → Accepts none scope t := by
  induction h with
  | reference ht _ =>
      intro scope hscoped
      exact accepts_of_mem_names ht ((isScoped_reference ht).mp hscoped)
  | leaf s hl => exact fun _ _ => accepts_leaf hl s
  | subselect distinct s₁ s₂ s₃ hitems hjoins _ _ hfinal hselect hrest =>
      intro scope hscoped
      refine accepts_subselect.mpr
        ((declares_subselect hitems hjoins hfinal).accepts_of_isScopedStatement scope
          (fun c hc scope hc' => ?_) (isScoped_subselect.mp hscoped))
      rcases mem_clauses_body hc with rfl | hc
      · refine (accepts_compound rfl).mpr fun u hu => hselect u hu scope ?_
        exact (isScoped_compound rfl).mp hc' u hu
      · exact hrest c hc scope hc'
  | compound s hl _ ih =>
      exact fun scope h => (accepts_compound hl).mpr fun c hc =>
        ih c hc scope ((isScoped_compound hl).mp h c hc)

end Query.Phrase

/-! ## Statements that are read -/

namespace Query.Grammar

variable {t : Phrase}

/-- A where clause, if there is one, is a clause and declares nothing. -/
theorem restriction_cases {restriction : Option Phrase}
    (h : ∀ t ∈ restriction, Derives .whereClause t) :
    restriction = none ∨ ∃ cs s, restriction = some (.node .whereClause cs s) ∧
      (Phrase.node .whereClause cs s).WellFormed := by
  cases restriction with
  | none => exact Or.inl rfl
  | some w =>
      obtain ⟨hwell, hlabel⟩ := (h w rfl).shapes
      obtain ⟨l, cs, s⟩ := w
      obtain rfl : l = .whereClause := hlabel
      exact Or.inr ⟨cs, s, rfl, hwell⟩

/-- A child of a statement is normal and declares something, or it is a clause. -/
def IsPart (c : Phrase) : Prop :=
  c.label.isClause = false ∧ c.label.isJoin = false ∧ c.normalize = c ∨
    c.label.isClause = true ∧ c.WellFormed

theorem isPart_restriction {restriction : Option Phrase}
    (h : ∀ t ∈ restriction, Derives .whereClause t) : ∀ c ∈ restriction.toList, IsPart c := by
  rcases restriction_cases h with rfl | ⟨cs, s, rfl, hwell⟩
  · simp
  · exact List.forall_mem_singleton.mpr (Or.inr ⟨rfl, hwell⟩)

/-- An entity name and an alias. -/
theorem isPart_range (e a : String) (s₁ s₂ : Source.Span) :
    ∀ c ∈ [Phrase.node (.entityName e) [] s₁, .node (.identifier a) [] s₂], IsPart c :=
  List.forall_mem_cons.mpr
    ⟨Or.inl ⟨rfl, rfl, rfl⟩, List.forall_mem_singleton.mpr (Or.inl ⟨rfl, rfl, rfl⟩)⟩

theorem DerivesText.isPart (h : DerivesText t) : ∀ c ∈ t.children, IsPart c := by
  cases h with
  | selectStatement s hselect hsource hrestriction hgrouping hhaving horder =>
      have hclause : ∀ {c : Phrase}, c.WellFormed → c.label.isClause = true → IsPart c :=
        fun hwell hlabel => Or.inr ⟨hlabel, hwell⟩
      refine List.forall_mem_cons.mpr ⟨?_, List.forall_mem_cons.mpr ⟨?_, fun c hc => ?_⟩⟩
      · have hwell := hselect.wellFormed_selectClause
        obtain ⟨distinct, cs, s₁, rfl, -⟩ := hselect.shapes
        exact hclause hwell rfl
      · have hsame := hsource.normalize_fromClause
        obtain ⟨items, s₂, rfl, -⟩ := hsource.shapes
        exact Or.inl ⟨rfl, rfl, hsame⟩
      · simp only [List.mem_append, Option.mem_toList] at hc
        rcases hc with ((hc | hc) | hc) | hc
        · exact hclause (hrestriction c hc).shapes.1 (by rw [(hrestriction c hc).shapes.2]; rfl)
        · exact hclause (hgrouping c hc).shapes.1 (by rw [(hgrouping c hc).shapes.2]; rfl)
        · exact hclause (hhaving c hc).shapes.1 (by rw [(hhaving c hc).shapes.2]; rfl)
        · exact hclause (horder c hc).shapes.1 (by rw [(horder c hc).shapes.2]; rfl)
  | updateStatement s₁ s₂ s₃ s₄ s _ _ hassignments hrestriction =>
      have hset := wellFormed_of_all (l := .setClause) rfl s₄ fun u hu => (hassignments u hu).shapes
      exact List.forall_mem_cons.mpr ⟨Or.inl ⟨rfl, rfl, rfl⟩,
        List.forall_mem_cons.mpr ⟨Or.inr ⟨rfl, hset⟩, isPart_restriction hrestriction⟩⟩
  | deleteStatement s₁ s₂ s₃ s _ _ hrestriction =>
      exact List.forall_mem_cons.mpr ⟨Or.inl ⟨rfl, rfl, rfl⟩, isPart_restriction hrestriction⟩
  | accessRule s₁ s₂ s _ _ _ hrestriction =>
      exact List.forall_mem_cons.mpr ⟨Or.inl ⟨rfl, rfl, rfl⟩,
        List.forall_mem_cons.mpr ⟨Or.inl ⟨rfl, rfl, rfl⟩, isPart_restriction hrestriction⟩⟩

theorem DerivesText.declares (h : DerivesText t) :
    ∃ kind, StatementKind.ofLabel? t.label = some kind ∧ Declares kind t := by
  cases h with
  | selectStatement s h₁ h₂ h₃ h₄ h₅ h₆ =>
      obtain ⟨ts, r, heq, distinct, cs, s₁, items, s₂, rest, rfl, -, hitems, hrest⟩ :=
        (DerivesText.selectStatement s h₁ h₂ h₃ h₄ h₅ h₆).isSelect rfl
      rw [heq]
      refine ⟨.select, rfl, declares_body (Or.inl ⟨rfl, rfl⟩) hitems fun c hc => ?_⟩
      have htail := (hrest c hc).2
      rw [isTailClause, Bool.or_eq_true, beq_iff_eq] at htail
      rcases htail with hfinal | hlabel
      · exact isClause_of_isFinalClause hfinal
      · rw [hlabel]
        rfl
  | updateStatement s₁ s₂ s₃ s₄ s _ _ _ hrestriction =>
      refine ⟨.update, rfl, ?_⟩
      rcases restriction_cases hrestriction with rfl | ⟨cs, r, rfl, -⟩ <;>
        exact ⟨rfl, List.forall_mem_singleton.mpr (.intro _ _ _ [] s₁ s₂ s₃ (by simp)),
          by simp [Phrase.children, Phrase.label, declaresOnly, Label.isClause]⟩
  | deleteStatement s₁ s₂ s₃ s _ _ hrestriction =>
      refine ⟨.delete, rfl, ?_⟩
      rcases restriction_cases hrestriction with rfl | ⟨cs, r, rfl, -⟩ <;>
        exact ⟨rfl, List.forall_mem_singleton.mpr (.intro _ _ _ [] s₁ s₂ s₃ (by simp)),
          by simp [Phrase.children, Phrase.label, declaresOnly, Label.isClause]⟩
  | accessRule s₁ s₂ s _ _ _ hrestriction =>
      refine ⟨.accessRule, rfl, ?_⟩
      rcases restriction_cases hrestriction with rfl | ⟨cs, r, rfl, -⟩ <;>
        exact ⟨rfl, List.forall_mem_singleton.mpr (.intro _ _ _ _ s₁ s₂ s
            (by simp [Phrase.label, Label.isJoin])),
          by simp [Phrase.children, Phrase.label, declaresOnly, Label.isClause]⟩

/-- A statement is scoped if its normal form is. -/
theorem DerivesText.isScopedStatement_normalize (h : DerivesText t) (visible : List String) :
    IsScopedStatement visible t.normalize ↔ IsScopedStatement visible t := by
  have hparts := h.isPart
  obtain ⟨kind, hkind, -⟩ := h.declares
  obtain ⟨l, cs, s⟩ := t
  rw [Phrase.normalize, normalizeAll_eq_map, StatementKind.close_eq (l := l) hkind]
  refine Phrase.isScopedStatement_normalize fun c hc => ?_
  rcases hparts c hc with hsame | ⟨hclause, hwell⟩
  · exact Or.inl hsame
  · exact Or.inr ⟨hclause, hwell.isScoped_normalize⟩

theorem DerivesText.wellFormed_clauses (h : DerivesText t) : ∀ c ∈ t.clauses, c.WellFormed := by
  intro c hc
  obtain ⟨hc, hclause⟩ := List.mem_filter.mp hc
  rcases h.isPart c hc with ⟨hnone, -⟩ | ⟨-, hwell⟩
  · cases hnone.symm.trans hclause
  · exact hwell

end Query.Grammar

open Query.Grammar (derivesText_of_ofText derivesRule_of_ruleOfText)

/-- A statement or a rule that is read passes the check only if its aliases differ and each of
its names is visible where it stands, and so for the subselects in it.  Without a model it
passes if this is so. -/
theorem statement_checked_iff_scoped {source : String} {t : Phrase}
    (ht : Phrase.ofText source = .ok t ∨ Phrase.ruleOfText source = .ok t) :
    (∀ model? s, Statement.ofPhrase model? t = .ok s → IsScopedStatement [] t) ∧
      (IsScopedStatement [] t → ∃ s, Statement.ofPhrase none t = .ok s) := by
  have hderives : Query.Grammar.DerivesText t :=
    ht.elim derivesText_of_ofText fun h => (derivesRule_of_ruleOfText h).1
  have hnormal := hderives.normalize
  obtain ⟨kind, hkind, hdeclares⟩ := hnormal.declares
  have hwell := hnormal.wellFormed_clauses
  have hchecked : ∀ model?, Statement.ofPhrase model? t =
      statement model? kind [] t.normalize := by
    intro model?
    unfold Statement.ofPhrase
    simp only [hkind]
  rw [← hderives.isScopedStatement_normalize]
  constructor
  · intro model? s hs
    rw [hchecked] at hs
    obtain ⟨ds, hds, haccepts⟩ := exists_statement_iff.mp ⟨s, hs⟩
    exact hdeclares.isScopedStatement (fun c hc => (hwell c hc).isScoped_of_accepts) hds haccepts
  · intro hscoped
    rw [hchecked]
    exact exists_statement_iff.mpr (hdeclares.accepts_of_isScopedStatement
      [] (fun c hc => (hwell c hc).accepts_of_isScoped) hscoped)

/-- The path of a join may start at a range behind it, and a subselect may declare an alias
anew; a path that starts at a join behind it is refused. -/
theorem statement_checked_iff_scoped_joins :
    (∃ t, Phrase.ofText
        "SELECT d FROM A d JOIN f.owner o, B f WHERE EXISTS (SELECT d FROM C d WHERE d = o)" =
          .ok t ∧ IsScopedStatement [] t) ∧
      ∃ t, Phrase.ofText "SELECT d FROM A d LEFT JOIN o.tags g LEFT JOIN d.owner o" = .ok t ∧
        ¬IsScopedStatement [] t := by
  have haccepted : (Phrase.ofText
      "SELECT d FROM A d JOIN f.owner o, B f WHERE EXISTS (SELECT d FROM C d WHERE d = o)"
      ).toOption.any fun t => (Statement.ofPhrase none t).toOption.any fun _ => true := by
    decide +kernel
  have hrefused : (Phrase.ofText
      "SELECT d FROM A d LEFT JOIN o.tags g LEFT JOIN d.owner o").toOption.any fun t =>
        (Statement.ofPhrase none t).toOption.isNone := by decide +kernel
  constructor
  · obtain ⟨t, ht, hs⟩ := ok_of_any haccepted
    obtain ⟨s, hs, -⟩ := ok_of_any hs
    exact ⟨t, ht, (statement_checked_iff_scoped (Or.inl ht)).1 none s hs⟩
  · obtain ⟨t, ht, hnone⟩ := ok_of_any hrefused
    refine ⟨t, ht, fun hscoped => ?_⟩
    obtain ⟨s, hs⟩ := (statement_checked_iff_scoped (Or.inl ht)).2 hscoped
    rw [hs] at hnone
    cases hnone

end RowGuard
