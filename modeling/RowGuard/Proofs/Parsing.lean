import RowGuard.Proofs.Reading

/-!
# What statements are read as

Whatever a text is read as, the grammar derives it: the clauses from what their
readers yield, the statements and rules from their clauses.  The tokens that all
of it rests on come from cutting the text.  So every subselect in a statement is
well-formed, wherever it stands, and a select statement or a rule has the parts
that its kind asks for.
-/

namespace RowGuard

open Query (AccessKind Cursor Grammar.Inner Keyword Label Lexeme Phrase Reader Token)
open Query.Phrase

namespace Query.Grammar

open Reader

/-! ## Clauses -/

theorem yields_joinStart : Yields (fun _ => True) joinStart := by
  refine yields_peekKeyword.bind fun keyword? _ => ?_
  split
  · exact .pure trivial
  · exact yields_advance.bind fun _ _ => .pure trivial
  · exact yields_advance.bind fun _ _ => (yields_eatKeyword _).bind fun _ _ => .pure trivial
  · exact .pure trivial

theorem yields_join? : Yields (fun j? => ∀ j, j? = some j → Derives .join j) join? := by
  refine yields_here.bind fun start _ => yields_joinStart.bind fun outer? _ => ?_
  cases outer? with
  | none => exact .pure (by simp)
  | some outer =>
      refine (yields_requireKeyword _).bind fun _ _ => (yields_eatKeyword _).bind fun fetch _ => ?_
      refine yields_pathExpression.bind fun p hp => (yields_eatKeyword _).bind fun _ _ => ?_
      have hsome : ∀ j, Derives .join j →
          Yields (fun j? => ∀ j, j? = some j → Derives .join j) (pure (some j)) := by
        intro j hj
        refine .pure ?_
        rintro _ ⟨⟩
        exact hj
      have hfinish : ∀ named : Bool, Yields (fun j? => ∀ j, j? = some j → Derives .join j) (do
          if named then
            let name ← variableName
            return some (← close (.join outer fetch) [p, name] start)
          else return some (← close (.join outer fetch) [p] start)) := by
        intro named
        refine .ite (fun _ => yields_variableName.bind fun name hname => ?_) fun _ => ?_
        · obtain ⟨a, r, rfl, ha⟩ := hname
          exact (yields_close fun s => .joinNamed outer fetch s r hp ha).bind hsome
        · exact (yields_close fun s => .join outer fetch s hp).bind hsome
      exact .ite (fun _ => hfinish true) fun _ => yields_aliasNext.bind fun named _ => hfinish named

theorem yields_fromItem : Yields (Derives .fromItem) fromItem := by
  refine yields_here.bind fun start _ => yields_entityName.bind fun entity hentity => ?_
  refine yields_declaredAlias.bind fun name hname => (yields_many yields_join?).bind fun js hjs => ?_
  obtain ⟨e, s₁, rfl, he⟩ := hentity
  obtain ⟨a, s₂, rfl, ha⟩ := hname
  exact yields_close fun s => .fromItem s₁ s₂ s he ha hjs

/-- A list of phrases, at least one, under a label. -/
theorem yields_list {l : Label} {P Q : Phrase → Prop} {ts : List Phrase} {start : Source.Span}
    (h : AtLeastOne P ts) (hnode : ∀ t us s, (∀ u ∈ t :: us, P u) → Q (.node l (t :: us) s)) :
    Yields Q (close l ts start) := by
  obtain ⟨t, ts, rfl, hts⟩ := h
  exact yields_close fun s => hnode t ts s hts

theorem yields_fromClause : Yields (Derives .fromClause) fromClause :=
  (yields_requireKeyword _).bind fun _ _ => (yields_commaSeparated yields_fromItem).bind
    fun _ hts => yields_list hts fun _ _ s => .fromClause s

/-- No clause, or one with a property. -/
def AtMostOne (P : Phrase → Prop) (ts : List Phrase) : Prop :=
  ∃ t? : Option Phrase, ts = t?.toList ∧ ∀ t ∈ t?, P t

theorem yields_noClause {P : Phrase → Prop} :
    Yields (AtMostOne P) (pure [] : Reader (List Phrase)) :=
  .pure ⟨none, rfl, by simp⟩

theorem yields_oneClause {P : Phrase → Prop} {r : Reader Phrase} (h : Yields P r) :
    Yields (AtMostOne P) (do return [← r]) :=
  h.bind fun t ht => .pure ⟨some t, rfl, by simpa using ht⟩

section Clauses

variable {operand condition : Reader Phrase} (hoperand : Yields (Derives .sum) operand)
  (hcondition : Yields (Derives .condition) condition)

include hoperand in
theorem yields_selectItem : Yields (Derives .selected) (selectItem operand) := by
  refine yields_peekKeyword.bind fun _ _ => .ite (fun _ => ?_)
    fun _ => hoperand.mono fun _ => .item
  refine (yields_requireKeyword _).bind fun _ _ => (yields_requireWord _).bind fun w hw => ?_
  refine (yields_many (P := fun v => isName v) ?_).bind fun ws hws =>
    (yields_require _ _).bind fun _ _ => (yields_commaSeparated hoperand).bind fun _ hts =>
      (yields_require _ _).bind fun _ _ => yields_list hts fun _ _ s =>
        .newObject s (List.forall_mem_cons.mpr ⟨hw, hws⟩)
  refine (yields_eat _).bind fun _ _ => .ite
    (fun _ => (yields_requireWord _).bind fun v hv => .pure ?_) fun _ => .pure (by simp)
  rintro _ ⟨⟩
  exact hv

include hoperand in
theorem yields_selectClause : Yields (Derives .selectClause) (selectClause operand) :=
  (yields_requireKeyword _).bind fun _ _ => (yields_eatKeyword _).bind fun distinct _ =>
    (yields_commaSeparated (yields_selectItem hoperand)).bind fun _ hts =>
      yields_list hts fun _ _ s => .selectClause distinct s

include hcondition in
theorem yields_whereClause :
    Yields (AtMostOne (Derives .whereClause)) (whereClause condition) :=
  yields_here.bind fun _ _ => (yields_eatKeyword _).bind fun _ _ => .ite
    (fun _ => hcondition.bind fun _ ht => yields_oneClause (yields_close fun s => .whereClause s ht))
    fun _ => yields_noClause

include hcondition in
theorem yields_havingClause :
    Yields (AtMostOne (Derives .havingClause)) (havingClause condition) :=
  yields_here.bind fun _ _ => (yields_eatKeyword _).bind fun _ _ => .ite
    (fun _ => hcondition.bind fun _ ht => yields_oneClause (yields_close fun s => .havingClause s ht))
    fun _ => yields_noClause

include hoperand in
theorem yields_groupByClause :
    Yields (AtMostOne (Derives .groupByClause)) (groupByClause operand) :=
  yields_here.bind fun _ _ => (yields_eatKeyword _).bind fun _ _ => .ite
    (fun _ => (yields_requireKeyword _).bind fun _ _ => (yields_commaSeparated hoperand).bind
      fun _ hts => yields_oneClause (yields_list hts fun _ _ s => .groupByClause s))
    fun _ => yields_noClause

include hoperand in
theorem yields_orderByClause :
    Yields (AtMostOne (Derives .orderByClause)) (orderByClause operand) := by
  have hdirection : Yields (fun _ => True) direction :=
    (yields_eatKeyword _).bind fun _ _ => .ite (fun _ => .pure trivial) fun _ =>
      (yields_eatKeyword _).bind fun _ _ => .pure trivial
  have hitem : Yields (Derives .orderByItem) (orderByItem operand) :=
    yields_here.bind fun _ _ => hoperand.bind fun _ ht => hdirection.bind fun descending _ =>
      yields_close fun s => .orderByItem descending s ht
  exact yields_here.bind fun _ _ => (yields_eatKeyword _).bind fun _ _ => .ite
    (fun _ => (yields_requireKeyword _).bind fun _ _ => (yields_commaSeparated hitem).bind
      fun _ hts => yields_oneClause (yields_list hts fun _ _ s => .orderByClause s))
    fun _ => yields_noClause

/-- The clauses that a statement and a subselect have in common. -/
structure DerivesBody (ts : List Phrase) (select source : Phrase)
    (restriction grouping having : Option Phrase) : Prop where
  eq : ts = select :: source :: (restriction.toList ++ grouping.toList ++ having.toList)
  select : Derives .selectClause select
  source : Derives .fromClause source
  restriction : ∀ t ∈ restriction, Derives .whereClause t
  grouping : ∀ t ∈ grouping, Derives .groupByClause t
  having : ∀ t ∈ having, Derives .havingClause t

include hoperand hcondition in
theorem yields_selectBody :
    Yields (fun ts => ∃ select source restriction grouping having,
      DerivesBody ts select source restriction grouping having)
      (selectBody operand condition) := by
  refine (yields_selectClause hoperand).bind fun select hselect => ?_
  refine yields_fromClause.bind fun source hsource => ?_
  refine (yields_whereClause hcondition).bind fun _ hrestriction => ?_
  refine (yields_groupByClause hoperand).bind fun _ hgrouping => ?_
  refine (yields_havingClause hcondition).bind fun _ hhaving => .pure ?_
  obtain ⟨restriction, rfl, hrestriction⟩ := hrestriction
  obtain ⟨grouping, rfl, hgrouping⟩ := hgrouping
  obtain ⟨having, rfl, hhaving⟩ := hhaving
  exact ⟨_, _, _, _, _, rfl, hselect, hsource, hrestriction, hgrouping, hhaving⟩

include hoperand hcondition in
theorem yields_subselect (start : Source.Span) :
    Yields (Derives .subselect) (subselect operand condition start) := by
  refine (yields_selectBody hoperand hcondition).bind fun ts hts =>
    (yields_require _ _).bind fun _ _ => ?_
  obtain ⟨select, source, restriction, grouping, having, rfl, h₁, h₂, h₃, h₄, h₅⟩ := hts
  exact yields_close fun s => .query s h₁ h₂ h₃ h₄ h₅

end Clauses

/-! ## Nesting -/

/-- The readers of every depth are sound. -/
theorem innerSound_depth (n : Nat) : InnerSound (depth n) := by
  induction n with
  | zero => exact ⟨yields_fail _, yields_fail _, fun _ => yields_fail _⟩
  | succ n ih =>
      exact ⟨yields_condition ih, yields_sum ih, yields_subselect (yields_sum ih)
        (yields_condition ih)⟩

/-! ## Statements -/

theorem nodup_distinct {α : Type} [BEq α] [LawfulBEq α] (as : List α) : (distinct as).Nodup := by
  have hfold : ∀ (bs kept : List α), kept.Nodup →
      (bs.foldl (fun kept a => if kept.contains a then kept else a :: kept) kept).Nodup := by
    intro bs
    induction bs with
    | nil => exact fun _ h => h
    | cons b bs ih =>
        intro kept h
        refine ih _ ?_
        dsimp only
        split
        · exact h
        · rename_i hnew
          exact List.nodup_cons.mpr ⟨by simpa using hnew, h⟩
  exact List.nodup_reverse.mpr (hfold as [] List.nodup_nil)

section Statements

variable {inner : Inner} (hinner : InnerSound inner)
include hinner

theorem yields_selectStatement : Yields DerivesText (selectStatement inner) := by
  refine yields_here.bind fun start _ => ?_
  refine (yields_selectBody hinner.operand hinner.condition).bind fun ts hts => ?_
  refine (yields_orderByClause hinner.operand).bind fun _ horder => yields_close fun s => ?_
  obtain ⟨select, source, restriction, grouping, having, rfl, h₁, h₂, h₃, h₄, h₅⟩ := hts
  obtain ⟨order, rfl, h₆⟩ := horder
  exact .selectStatement s h₁ h₂ h₃ h₄ h₅ h₆

theorem yields_updateStatement : Yields DerivesText (updateStatement inner) := by
  refine (yields_requireKeyword _).bind fun start _ => yields_entityName.bind fun entity he => ?_
  refine yields_declaredAlias.bind fun name hname => ?_
  obtain ⟨e, s₁, rfl, he⟩ := he
  obtain ⟨a, s₂, rfl, ha⟩ := hname
  refine Yields.bind (P := fun t => ∃ s₃, t = .node .updateClause
      [.node (.entityName e) [] s₁, .node (.identifier a) [] s₂] s₃)
    (yields_close fun s => ⟨s, rfl⟩) fun update hupdate => (yields_requireKeyword _).bind
    fun setStart _ => ?_
  obtain ⟨s₃, rfl⟩ := hupdate
  have hassignment : Yields (Derives .assignment) (assignment inner) :=
    yields_here.bind fun _ _ => yields_pathExpression.bind fun _ htarget =>
      (yields_require _ _).bind fun _ _ => hinner.operand.bind fun _ hvalue =>
        yields_close fun s => .assignment s htarget hvalue
  refine (yields_commaSeparated hassignment).bind fun assignments has => ?_
  obtain ⟨t, ts, rfl, hts⟩ := has
  refine Yields.bind (P := fun u => ∃ s₄, u = .node .setClause (t :: ts) s₄)
    (yields_close fun s => ⟨s, rfl⟩) fun set hset => ?_
  obtain ⟨s₄, rfl⟩ := hset
  refine (yields_whereClause hinner.condition).bind fun _ hrestriction => ?_
  obtain ⟨restriction, rfl, hrestriction⟩ := hrestriction
  exact yields_close fun s => .updateStatement s₁ s₂ s₃ s₄ s he ha hts hrestriction

theorem yields_deleteStatement : Yields DerivesText (deleteStatement inner) := by
  refine (yields_requireKeyword _).bind fun start _ => (yields_requireKeyword _).bind fun _ _ => ?_
  refine yields_entityName.bind fun entity he => yields_declaredAlias.bind fun name hname => ?_
  obtain ⟨e, s₁, rfl, he⟩ := he
  obtain ⟨a, s₂, rfl, ha⟩ := hname
  refine Yields.bind (P := fun t => ∃ s₃, t = .node .deleteClause
      [.node (.entityName e) [] s₁, .node (.identifier a) [] s₂] s₃)
    (yields_close fun s => ⟨s, rfl⟩) fun delete hdelete => ?_
  obtain ⟨s₃, rfl⟩ := hdelete
  refine (yields_whereClause hinner.condition).bind fun _ hrestriction => ?_
  obtain ⟨restriction, rfl, hrestriction⟩ := hrestriction
  exact yields_close fun s => .deleteStatement s₁ s₂ s₃ s he ha hrestriction

/-- An access rule, whichever the text is read as. -/
def DerivesRule (t : Phrase) : Prop := DerivesText t ∧ ∃ kinds, t.label = .accessRule kinds

theorem yields_accessRule : Yields DerivesRule (accessRule inner) := by
  refine (yields_requireKeyword _).bind fun start _ => ?_
  refine (yields_many (P := fun _ => True) ?_).bind fun kinds _ => ?_
  · refine yields_peekKeyword.bind fun _ _ => .ite (fun _ => ?_) fun _ => .pure fun _ _ => trivial
    exact yields_advance.bind fun _ _ => .pure fun _ _ => trivial
  refine (yields_requireKeyword _).bind fun _ _ => (yields_requireKeyword _).bind fun _ _ => ?_
  refine yields_entityName.bind fun entity hentity => yields_declaredAlias.bind fun name hname => ?_
  refine (yields_whereClause hinner.condition).bind fun _ hrest => yields_close fun s => ?_
  obtain ⟨e, s₁, rfl, he⟩ := hentity
  obtain ⟨a, s₂, rfl, ha⟩ := hname
  obtain ⟨restriction, rfl, hrestriction⟩ := hrest
  exact ⟨.accessRule s₁ s₂ s (nodup_distinct kinds) he ha hrestriction, _, rfl⟩

omit hinner in
theorem yields_endOfText : Yields (fun _ => True) endOfText :=
  yields_get.bind fun _ _ => .ite (fun _ => .pure trivial) fun _ => yields_fail _

theorem yields_statement : Yields DerivesText (statement inner) := by
  have hfinish : ∀ t, DerivesText t → Yields DerivesText (do
      endOfText
      return t) := fun t ht => yields_endOfText.bind fun _ _ => .pure ht
  refine yields_peekKeyword.bind fun keyword? _ => ?_
  split
  · exact (yields_selectStatement hinner).bind hfinish
  · exact (yields_updateStatement hinner).bind hfinish
  · exact (yields_deleteStatement hinner).bind hfinish
  · exact (yields_accessRule hinner).bind fun t ht => hfinish t ht.1
  · exact (yields_fail (P := DerivesText) _).bind hfinish

theorem yields_rule : Yields DerivesRule (rule inner) :=
  yields_peekKeyword.bind fun _ _ => .ite
    (fun _ => (yields_accessRule hinner).bind fun _ ht => yields_endOfText.bind fun _ _ => .pure ht)
    fun _ => yields_fail _

end Statements

/-! ## Texts -/

theorem yields_read {P : Phrase → Prop} {reader : Inner → Reader Phrase}
    (hreader : ∀ inner, InnerSound inner → Yields P (reader inner)) {source : String}
    {t : Phrase} (h : read reader source = .ok t) : P t := by
  obtain ⟨tokens, htokens, h⟩ := Scope.ok_of_bind h
  split at h
  · rename_i u c hread
    cases h
    exact (hreader _ (innerSound_depth _) ⟨tokens, _, _⟩ _ _ (legal_of_scan htokens) hread).1
  · cases h

/-- The grammar derives what a text is read as. -/
theorem derivesText_of_ofText {source : String} {t : Phrase} (h : Phrase.ofText source = .ok t) :
    DerivesText t :=
  yields_read (fun _ hinner => yields_statement hinner) h

theorem derivesRule_of_ruleOfText {source : String} {t : Phrase}
    (h : Phrase.ruleOfText source = .ok t) : DerivesRule t :=
  yields_read (fun _ hinner => yields_rule hinner) h

/-! ## The parts of statements -/

/-- Clauses that are well-formed phrases with a label of some kind. -/
def AreClauses (isKind : Label → Bool) (ts : List Phrase) : Prop :=
  ∀ t ∈ ts, t.WellFormed ∧ isKind t.label = true

/-- A select clause, a from clause and clauses of some kind behind them. -/
def IsBody (isKind : Label → Bool) (ts : List Phrase) : Prop :=
  ∃ distinct cs s₁ items s₂ rest, ts = .node (.selectClause distinct) cs s₁
    :: .node .fromClause items s₂ :: rest ∧ (∀ t ∈ cs, t.WellFormed) ∧
    (∀ r ∈ items, IsItem r) ∧ AreClauses isKind rest

/-- Clauses that may stand behind the from clause of a select statement. -/
def isTailClause (l : Label) : Bool := l.isFinalClause || l == .orderByClause

/-- A select statement of the shape that reading gives. -/
def IsSelect (t : Phrase) : Prop :=
  ∃ ts s, t = .node .selectStatement ts s ∧ IsBody isTailClause ts

/-- An access rule of the shape that reading gives. -/
def IsRule (t : Phrase) : Prop :=
  ∃ kinds entity s₁ subject s₂ rest s, t = .node (.accessRule kinds)
    (.node (.entityName entity) [] s₁ :: .node (.identifier subject) [] s₂ :: rest) s ∧
    IsWord subject ∧ AreClauses (· == .whereClause) rest

theorem areClauses_where {restriction : Option Phrase}
    (h : ∀ t ∈ restriction, Derives .whereClause t) :
    AreClauses (· == .whereClause) restriction.toList := by
  intro t ht
  obtain ⟨hwell, hlabel⟩ := (h t (Option.mem_toList.mp ht)).shapes
  exact ⟨hwell, by rw [hlabel]; rfl⟩

theorem DerivesText.isSelect {t : Phrase} (h : DerivesText t) (hlabel : t.label = .selectStatement) :
    IsSelect t := by
  cases h with
  | selectStatement s hselect hsource hrestriction hgrouping hhaving horder =>
      obtain ⟨distinct, cs, s₁, rfl, hcs⟩ := hselect.shapes
      obtain ⟨items, s₂, rfl, hitems⟩ := hsource.shapes
      refine ⟨_, s, rfl, distinct, cs, s₁, items, s₂, _, rfl, hcs, hitems, fun t ht => ?_⟩
      rcases List.mem_append.mp ht with ht | ht
      · obtain ⟨hwell, hfinal⟩ := isFinalClause_of_shapes (fun t ht => (hrestriction t ht).shapes)
          (fun t ht => (hgrouping t ht).shapes) (fun t ht => (hhaving t ht).shapes) t ht
        exact ⟨hwell, by simp [isTailClause, hfinal]⟩
      · obtain ⟨hwell, hlabel⟩ := (horder t (Option.mem_toList.mp ht)).shapes
        exact ⟨hwell, by simp [isTailClause, hlabel]⟩
  | updateStatement => cases hlabel
  | deleteStatement => cases hlabel
  | accessRule => cases hlabel

theorem DerivesRule.isRule {t : Phrase} (h : DerivesRule t) : IsRule t := by
  obtain ⟨h, kinds, hlabel⟩ := h
  cases h with
  | accessRule s₁ s₂ s _ _ ha hrestriction =>
      exact ⟨_, _, s₁, _, s₂, _, s, rfl, isWord_of_isVariable ha, areClauses_where hrestriction⟩
  | selectStatement => cases hlabel
  | updateStatement => cases hlabel
  | deleteStatement => cases hlabel

/-- Subselects are well-formed wherever they stand. -/
def Sound (t : Phrase) : Prop := ∀ u ∈ t.nodes, u.label = .subselect → u.WellFormed

/-! ## Subselects in statements -/

theorem sound_node {l : Label} (hl : l ≠ .subselect) {ts : List Phrase} (s : Source.Span)
    (h : ∀ t ∈ ts, Sound t) : Sound (.node l ts s) := by
  intro u hu hlabel
  simp only [nodes, visit, if_true, List.mem_cons] at hu
  rcases hu with rfl | hu
  · exact absurd hlabel hl
  · obtain ⟨t, ht, hu⟩ := mem_visitAll.mp hu
    exact h t ht u hu hlabel

theorem sound_leaf {l : Label} (hl : l ≠ .subselect) (s : Source.Span) :
    Sound (.node l [] s) :=
  sound_node hl s (by simp)

theorem sound_reference {t : Phrase} {x : String} {ws : List String} (h : t.IsReference x ws) :
    Sound t := by
  have hsegments : ∀ {segments : List Phrase} {ws : List String}, AreSegments segments ws →
      ∀ t ∈ segments, Sound t := by
    intro segments ws h
    induction h with
    | nil => simp
    | cons span hword _ ih =>
        intro t ht
        rcases List.mem_cons.mp ht with rfl | ht
        · exact sound_leaf (by simp) span
        · exact ih t ht
  cases h with
  | name span hword => exact sound_leaf (by simp) span
  | path rootSpan span hword h =>
      refine sound_node (by simp) span fun t ht => ?_
      rcases List.mem_cons.mp ht with rfl | ht
      · exact sound_leaf (by simp) rootSpan
      · exact hsegments h t ht

theorem sound_join {j : Phrase} (h : j.IsJoin) : Sound j := by
  cases h with
  | bare outer fetch s hp =>
      refine sound_node (by simp) s fun t ht => ?_
      rw [List.mem_singleton.mp ht]
      exact sound_reference hp
  | named outer fetch s r hp ha =>
      refine sound_node (by simp) s fun t ht => ?_
      rcases List.mem_cons.mp ht with rfl | ht
      · exact sound_reference hp
      · rw [List.mem_singleton.mp ht]
        exact sound_leaf (by simp) r

theorem sound_item {r : Phrase} (h : IsItem r) : Sound r := by
  obtain ⟨hrange, hjoins⟩ := h
  cases hrange with
  | intro a entity js s₁ s₂ s₃ ha =>
      refine sound_node (by simp) s₃ fun t ht => ?_
      rcases List.mem_cons.mp ht with rfl | ht
      · exact sound_leaf (by simp) s₁
      · rcases List.mem_cons.mp ht with rfl | ht
        · exact sound_leaf (by simp) s₂
        · exact sound_join (hjoins t ht)

theorem isJoin_of_joinsWithin {P : String → Prop} {names : List String} {js : List Phrase}
    (h : JoinsWithin P names js) : ∀ j ∈ js, j.IsJoin := by
  induction h with
  | nil => simp
  | bare outer fetch s hp _ _ ih =>
      intro j hj
      rcases List.mem_cons.mp hj with rfl | hj
      · exact .bare outer fetch s hp
      · exact ih j hj
  | named outer fetch s r hp _ ha _ ih =>
      intro j hj
      rcases List.mem_cons.mp hj with rfl | hj
      · exact .named outer fetch s r hp ha
      · exact ih j hj

/-- A select clause, a from clause and clauses behind them. -/
theorem sound_clauses {distinct : Bool} {cs items rest : List Phrase} {s₁ s₂ : Source.Span}
    (hitems : ∀ r ∈ items, IsItem r) (hcs : ∀ t ∈ cs, Sound t) (hrest : ∀ t ∈ rest, Sound t) :
    ∀ t ∈ Phrase.node (.selectClause distinct) cs s₁ :: .node .fromClause items s₂ :: rest,
      Sound t := by
  intro t ht
  rcases List.mem_cons.mp ht with rfl | ht
  · exact sound_node (by simp) s₁ hcs
  · rcases List.mem_cons.mp ht with rfl | ht
    · exact sound_node (by simp) s₂ fun r hr => sound_item (hitems r hr)
    · exact hrest t ht

/-- In a well-formed phrase every subselect is well-formed. -/
theorem sound_of_within {P : String → Prop} {t : Phrase} (h : Within P t) : Sound t := by
  induction h with
  | reference ht _ => exact sound_reference ht
  | leaf s hl =>
      refine sound_leaf ?_ s
      rintro rfl
      cases hl
  | compound s hcompound _ ih =>
      refine sound_node ?_ s ih
      rintro rfl
      cases hcompound
  | @subselect P cs items rest distinct s₁ s₂ s₃ hitems hjoins hcs hrest hfinal hselect hlast =>
      intro u hu hlabel
      simp only [nodes, visit, if_true, List.mem_cons] at hu
      rcases hu with rfl | hu
      · exact (Within.subselect distinct s₁ s₂ s₃ hitems hjoins hcs hrest hfinal).mono
          fun _ _ => trivial
      · obtain ⟨t, ht, hu⟩ := mem_visitAll.mp hu
        have hjoin := isJoin_of_joinsWithin hjoins
        refine sound_clauses (fun r hr => ⟨hitems r hr, fun j hj => hjoin j ?_⟩) hselect hlast t ht
          u hu hlabel
        exact List.mem_flatMap.mpr ⟨r, hr, hj⟩

theorem sound_of_clauses {isKind : Label → Bool} {ts : List Phrase} (h : AreClauses isKind ts) :
    ∀ t ∈ ts, Sound t :=
  fun t ht => sound_of_within (h t ht).1

theorem sound_of_body {isKind : Label → Bool} {ts : List Phrase} (h : IsBody isKind ts) :
    ∀ t ∈ ts, Sound t := by
  obtain ⟨distinct, cs, s₁, items, s₂, rest, rfl, hcs, hitems, hrest⟩ := h
  exact sound_clauses hitems (fun t ht => sound_of_within (hcs t ht)) (sound_of_clauses hrest)

theorem sound_of_isSelect {t : Phrase} (h : IsSelect t) : Sound t := by
  obtain ⟨ts, s, rfl, hbody⟩ := h
  exact sound_node (by simp) s (sound_of_body hbody)

/-- An entity name and an alias. -/
theorem sound_range {e a : String} {rest : List Phrase} (s₁ s₂ : Source.Span)
    (hrest : ∀ t ∈ rest, Sound t) :
    ∀ t ∈ Phrase.node (.entityName e) [] s₁ :: .node (.identifier a) [] s₂ :: rest, Sound t := by
  intro t ht
  rcases List.mem_cons.mp ht with rfl | ht
  · exact sound_leaf (by simp) s₁
  · rcases List.mem_cons.mp ht with rfl | ht
    · exact sound_leaf (by simp) s₂
    · exact hrest t ht

theorem sound_of_isRule {t : Phrase} (h : IsRule t) : Sound t := by
  obtain ⟨kinds, e, s₁, a, s₂, rest, s, rfl, ha, hrest⟩ := h
  exact sound_node (by simp) s (sound_range s₁ s₂ (sound_of_clauses hrest))

/-- What a statement is read as. -/
structure IsStatement (t : Phrase) : Prop where
  sound : Sound t
  select : t.label = .selectStatement → IsSelect t

theorem DerivesText.sound {t : Phrase} (h : DerivesText t) : Sound t := by
  cases h with
  | selectStatement s h₁ h₂ h₃ h₄ h₅ h₆ =>
      exact sound_of_isSelect ((DerivesText.selectStatement s h₁ h₂ h₃ h₄ h₅ h₆).isSelect rfl)
  | updateStatement s₁ s₂ s₃ s₄ s _ _ hassignments hrestriction =>
      have hset := wellFormed_of_all (l := .setClause) rfl s₄ fun u hu => (hassignments u hu).shapes
      refine sound_node (by simp) s (List.forall_mem_cons.mpr ⟨?_, List.forall_mem_cons.mpr
        ⟨sound_of_within hset, sound_of_clauses (areClauses_where hrestriction)⟩⟩)
      exact sound_node (by simp) s₃ (sound_range s₁ s₂ (by simp))
  | deleteStatement s₁ s₂ s₃ s _ _ hrestriction =>
      refine sound_node (by simp) s (List.forall_mem_cons.mpr
        ⟨?_, sound_of_clauses (areClauses_where hrestriction)⟩)
      exact sound_node (by simp) s₃ (sound_range s₁ s₂ (by simp))
  | accessRule s₁ s₂ s hkinds he ha hrestriction =>
      exact sound_of_isRule (DerivesRule.isRule
        ⟨.accessRule s₁ s₂ s hkinds he ha hrestriction, _, rfl⟩)

theorem DerivesText.isStatement {t : Phrase} (h : DerivesText t) : IsStatement t :=
  ⟨h.sound, h.isSelect⟩

end Query.Grammar

/-- What a text is read as. -/
theorem Query.Phrase.isStatement_of_ofText {source : String} {t : Phrase}
    (h : Phrase.ofText source = .ok t) : Query.Grammar.IsStatement t :=
  (Query.Grammar.derivesText_of_ofText h).isStatement

theorem Query.Phrase.isRule_of_ruleOfText {source : String} {t : Phrase}
    (h : Phrase.ruleOfText source = .ok t) : Query.Grammar.IsRule t :=
  (Query.Grammar.derivesRule_of_ruleOfText h).isRule

end RowGuard
