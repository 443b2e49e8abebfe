import RowGuard.Policy.Rule
import RowGuard.Proofs.Parsing

/-!
# Rules as they are read

The condition of a rule is well-formed and names nothing freely but the subject
of the rule, since the check of the rule has nothing else in its scope.
-/

namespace RowGuard

open Query (AliasDefinition Label Phrase ScopeError Statement)
open Query.Phrase
open Query.Scope
open Query.Grammar (IsRule Sound)

/-! ## Normal forms -/

theorem mem_nodes_of_mem_splice {l : Label} {t c u : Phrase}
    (hc : c ∈ Query.NormalForm.splice l t) (hu : u ∈ c.nodes) : u ∈ t.nodes := by
  unfold Query.NormalForm.splice at hc
  split at hc
  · obtain ⟨m, cs, s⟩ := t
    exact mem_nodes_of_child hc hu
  · rw [List.mem_singleton.mp hc] at hu
    exact hu

/-- Closing a node adds no subselect but the node itself. -/
theorem mem_nodes_close {l : Label} {ts : List Phrase} {s : Source.Span} {u : Phrase}
    (hu : u ∈ (Query.NormalForm.close l ts s).nodes) (hlabel : u.label = .subselect) :
    (l = .subselect ∧ u = .node l ts s) ∨ ∃ t ∈ ts, u ∈ t.nodes := by
  have hnode : ∀ {m : Label} {cs : List Phrase}, u ∈ (Phrase.node m cs s).nodes →
      (m = .subselect ∧ u = .node m cs s) ∨ ∃ t ∈ cs, u ∈ t.nodes := by
    intro m cs hu
    simp only [nodes, visit, if_true, List.mem_cons] at hu
    rcases hu with rfl | hu
    · exact Or.inl ⟨hlabel, rfl⟩
    · exact Or.inr (mem_visitAll.mp hu)
  unfold Query.NormalForm.close at hu
  split at hu
  case h_1 | h_2 =>
    rcases hnode hu with ⟨h, -⟩ | ⟨c, hc, hu⟩
    · cases h
    · obtain ⟨t, ht, hc⟩ := List.mem_flatMap.mp hc
      exact Or.inr ⟨t, ht, mem_nodes_of_mem_splice hc hu⟩
  · split at hu
    · rename_i t
      split at hu
      · exact Or.inr ⟨t, by simp, hu⟩
      · exact hnode hu
    · exact hnode hu
  · exact hnode hu

mutual

/-- The subselects of a normal form are normal forms of subselects. -/
theorem subselect_of_mem_normalize : ∀ {t u : Phrase}, u ∈ t.normalize.nodes →
    u.label = .subselect → ∃ v ∈ t.nodes, v.label = .subselect ∧ u = v.normalize
  | .node l cs s, u, hu, hlabel => by
      rcases mem_nodes_close hu hlabel with ⟨rfl, rfl⟩ | ⟨t, ht, hu⟩
      · exact ⟨.node .subselect cs s, mem_nodes_self _, rfl, rfl⟩
      · obtain ⟨c, hc, v, hv, hsub⟩ := subselect_of_mem_normalizeAll ht hu hlabel
        exact ⟨v, mem_nodes_of_child hc hv, hsub⟩

theorem subselect_of_mem_normalizeAll : ∀ {ts : List Phrase} {t u : Phrase},
    t ∈ normalizeAll ts → u ∈ t.nodes → u.label = .subselect →
      ∃ c ∈ ts, ∃ v ∈ c.nodes, v.label = .subselect ∧ u = v.normalize
  | [], t, u, ht, _, _ => by simp [normalizeAll] at ht
  | c :: cs, t, u, ht, hu, hlabel => by
      rcases List.mem_cons.mp ht with rfl | ht
      · exact ⟨c, by simp, subselect_of_mem_normalize hu hlabel⟩
      · obtain ⟨d, hd, hsub⟩ := subselect_of_mem_normalizeAll ht hu hlabel
        exact ⟨d, List.mem_cons_of_mem c hd, hsub⟩

end

theorem Query.Grammar.Sound.normalize {t : Phrase} (h : Sound t) : Sound t.normalize := by
  intro u hu hlabel
  obtain ⟨v, hv, hvlabel, rfl⟩ := subselect_of_mem_normalize hu hlabel
  exact (h v hv hvlabel).normalize

/-! ## Conditions -/

theorem mem_normalizeAll {ts : List Phrase} {u : Phrase} :
    u ∈ normalizeAll ts ↔ ∃ t ∈ ts, t.normalize = u := by
  induction ts with
  | nil => simp [normalizeAll]
  | cons t ts ih => simp [normalizeAll, ih, eq_comm]

theorem Query.Phrase.Within.children {P : String → Prop} {l : Label} {ts : List Phrase}
    {s : Source.Span} (h : Within P (.node l ts s)) (hcompound : l.isCompound) :
    ∀ t ∈ ts, Within P t := by
  cases h with
  | reference ht _ => cases ht <;> cases hcompound
  | leaf _ hl => simp
  | subselect => cases hcompound
  | compound _ _ h => exact h

theorem Query.Phrase.Within.clauses {P : String → Prop} {distinct : Bool}
    {cs items rest : List Phrase} {s₁ s₂ s₃ : Source.Span}
    (h : Within P (.node .subselect (.node (.selectClause distinct) cs s₁
      :: .node .fromClause items s₂ :: rest) s₃)) :
    JoinsWithin P (rangeAliases items) (joinsOf items) ∧
      (∀ t ∈ cs, Within (fun n => n ∈ itemAliases items ∨ P n) t) ∧
        ∀ t ∈ rest, Within (fun n => n ∈ itemAliases items ∨ P n) t := by
  cases h with
  | reference ht _ => cases ht
  | compound _ hcompound _ => cases hcompound
  | subselect _ _ _ _ _ hjoins hselect hrest _ => exact ⟨hjoins, hselect, hrest⟩

/-- What a list of computations gives comes from one of them. -/
theorem exists_of_mem_mapM {ε α β : Type} {f : α → Except ε β} {as : List α} {bs : List β}
    (h : as.mapM f = .ok bs) {b : β} (hb : b ∈ bs) : ∃ a ∈ as, f a = .ok b := by
  induction as generalizing bs with
  | nil =>
      cases h
      cases hb
  | cons a as ih =>
      rw [List.mapM_cons] at h
      obtain ⟨first, hfirst, h⟩ := ok_of_bind h
      obtain ⟨others, hothers, h⟩ := ok_of_bind h
      cases h
      rcases List.mem_cons.mp hb with rfl | hb
      · exact ⟨a, by simp, hfirst⟩
      · obtain ⟨c, hc, heq⟩ := ih hothers hb
        exact ⟨c, List.mem_cons_of_mem a hc, heq⟩

/-- Where a list of computations succeeds, each of them gives something. -/
theorem exists_mem_of_mapM {ε α β : Type} {f : α → Except ε β} {as : List α} {bs : List β}
    (h : as.mapM f = .ok bs) {a : α} (ha : a ∈ as) : ∃ b ∈ bs, f a = .ok b := by
  induction as generalizing bs with
  | nil => cases ha
  | cons first as ih =>
      rw [List.mapM_cons] at h
      obtain ⟨b, hb, h⟩ := ok_of_bind h
      obtain ⟨others, hothers, h⟩ := ok_of_bind h
      cases h
      rcases List.mem_cons.mp ha with rfl | ha
      · exact ⟨b, by simp, hb⟩
      · obtain ⟨c, hc, heq⟩ := ih hothers ha
        exact ⟨c, List.mem_cons_of_mem b hc, heq⟩

theorem ok_of_mapError {ε δ α : Type} {f : ε → δ} {x : Except ε α} {a : α}
    (h : x.mapError f = .ok a) : x = .ok a := by
  cases x with
  | error e => cases h
  | ok b =>
      cases h
      rfl

namespace AccessRule

/-- What the rules that come from one text have in common. -/
structure Reading where
  kinds : List Query.AccessKind
  subject : String
  condition? : Option Phrase

/-- The rule says what has been read. -/
structure Says (r : AccessRule) (said : Reading) : Prop where
  kinds : r.kinds = said.kinds
  subject : r.subject = said.subject
  condition : r.condition? = said.condition?

/-- The condition of a rule from the clauses behind its subject. -/
def conditionIn (rest : List Phrase) : Option Phrase :=
  ((normalizeAll rest).find? fun t => t.label = .whereClause).bind fun t => t.children.head?

theorem isFinalClause_of_where {rest : List Phrase}
    (hrest : Query.Grammar.AreClauses (· == .whereClause) rest) :
    ∀ t ∈ normalizeAll rest, t.label.isFinalClause := by
  refine normalizeAll_isFinalClause fun t ht => ?_
  rw [beq_iff_eq.mp (hrest t ht).2]
  rfl

theorem checkClauses_rule {m : Mapping} {scope : List AliasDefinition} {name a : String}
    {rest : List Phrase} (s₁ s₂ : Source.Span)
    (hrest : Query.Grammar.AreClauses (· == .whereClause) rest) :
    checkClauses (some m.model) scope (.node (.entityName name) [] s₁
      :: .node (.identifier a) [] s₂ :: normalizeAll rest) =
    checkAll (some m.model) scope (normalizeAll rest) := by
  rw [checkClauses, checkClauses, checkClauses_final _ _ (isFinalClause_of_where hrest)]
  simp only [Phrase.label, declaresOnly, if_true]
  cases checkAll (some m.model) scope (normalizeAll rest) <;> rfl

/-- Clauses that are no joins declare nothing. -/
theorem declareJoins_final {model? : Option Query.TypeModel}
    {outer declared : List AliasDefinition} {rest : List Phrase}
    (h : ∀ t ∈ rest, t.label.isFinalClause) :
    rest.foldlM (declareJoin model? outer) declared = .ok declared := by
  induction rest with
  | nil => rfl
  | cons t rest ih =>
      have ht := h t (by simp)
      have hjoin : declareJoin model? outer declared t = .ok declared := by
        obtain ⟨l, cs, s⟩ := t
        cases l <;> first | rfl | cases ht
      rw [List.foldlM_cons, hjoin]
      exact ih fun u hu => h u (List.mem_cons_of_mem t hu)

/-- A single range without joins is all that is declared. -/
theorem declarations_of_range {model? : Option Query.TypeModel} {kind : Query.StatementKind}
    {outer : List AliasDefinition} {t : Phrase} {l : Label} {name a : String} {rest : List Phrase}
    {s₁ s₂ s : Source.Span} {ds : List AliasDefinition}
    (hranges : ranges kind t = [.node l (.node (.entityName name) [] s₁
      :: .node (.identifier a) [] s₂ :: rest) s])
    (hrest : ∀ t ∈ rest, t.label.isFinalClause)
    (h : declarations model? kind outer t = .ok ds) : ds = [.range a name] := by
  unfold declarations at h
  simp only [hranges] at h
  obtain ⟨declared, hdeclared, hjoins⟩ := ok_of_bind h
  obtain ⟨more, hrange, hmore⟩ := ok_of_bind hdeclared
  obtain rfl : more = declared := Except.ok.inj hmore
  have hparts : declareRange model? kind [] (.node l
      (.node (.entityName name) [] s₁ :: .node (.identifier a) [] s₂ :: rest) s) =
      if model?.any fun m => !m.hasEntity name then .error ⟨unknownEntity kind name, s₁⟩
      else .ok [.range a name] := rfl
  have hds : more = ds := by
    have hfinal : rest.foldlM (declareJoin model? outer) more = .ok more :=
      declareJoins_final hrest
    simp only [List.flatMap_cons, List.flatMap_nil, List.append_nil, Phrase.children,
      List.drop_succ_cons, List.drop_zero] at hjoins
    exact Except.ok.inj (hfinal.symm.trans hjoins)
  subst hds
  rw [hparts] at hrange
  split at hrange
  · cases hrange
  · exact (Except.ok.inj hrange).symm

/-- A rule declares its subject, and its condition is checked in that scope. -/
theorem statement_rule {m : Mapping} {kinds : List Query.AccessKind} {name a : String}
    {rest : List Phrase} {s₁ s₂ s : Source.Span} {found : Statement}
    (hrest : Query.Grammar.AreClauses (· == .whereClause) rest)
    (h : Query.Scope.statement (some m.model) .accessRule [] (.node (.accessRule kinds)
      (.node (.entityName name) [] s₁ :: .node (.identifier a) [] s₂ :: normalizeAll rest) s) =
      .ok found) :
    found.condition? = conditionIn rest ∧ ∀ t, conditionIn rest = some t →
      Within (· = a) t ∧ ∃ ss, check (some m.model) [.range a name] t = .ok ss := by
  obtain ⟨ds, hds, h⟩ := ok_of_bind h
  obtain ⟨ss, hss, h⟩ := ok_of_bind h
  cases h
  refine ⟨rfl, fun t ht => ?_⟩
  obtain ⟨clause, hclause, hhead⟩ := Option.bind_eq_some_iff.mp ht
  have hmem := List.mem_of_find?_eq_some hclause
  have hlabel : clause.label = .whereClause := by simpa using List.find?_some hclause
  obtain rfl := declarations_of_range rfl (isFinalClause_of_where hrest) hds
  rw [Phrase.children, checkClauses_rule _ _ hrest] at hss
  obtain ⟨ss, hcheck⟩ := ok_of_checkAll hss clause hmem
  obtain ⟨c, hc, rfl⟩ := mem_normalizeAll.mp hmem
  have hwell := (hrest c hc).1.normalize
  generalize c.normalize = clause at hlabel hwell hcheck hhead
  obtain ⟨l, ts, span⟩ := clause
  cases hlabel
  rw [check_compound _ _ rfl] at hcheck
  have hchild := List.mem_of_head? hhead
  obtain ⟨ss, hcheck⟩ := ok_of_checkAll hcheck t hchild
  refine ⟨?_, ss, hcheck⟩
  apply (within_of_check (hwell.children rfl t hchild) hcheck).mono
  intro n hn
  exact List.mem_singleton.mp hn

/-- The rule of one class that comes from a text with these parts. -/
def Expands (m : Mapping) (position : Nat) (source : String) (kinds : List Query.AccessKind)
    (e a : String) (rest : List Phrase) (c : EntityClass) (r : AccessRule) : Prop :=
  ∃ found, found.condition? = conditionIn rest ∧
    (∀ t, conditionIn rest = some t →
      Within (· = a) t ∧ ∃ ss, check (some m.model) [.range a c.name] t = .ok ss) ∧
    (∃ s₁ s₂ s, Statement.ofPhrase (some m.model) (retarget c.name
      (.node (.accessRule kinds) (.node (.entityName e) [] s₁
        :: .node (.identifier a) [] s₂ :: rest) s)) = .ok found) ∧
    r = { position, source, declaredType := e, entityName := c.name, subject := a
          kinds := kindsOf kinds, statement := found }

/-- A text is expanded into one rule for each class that its type stands for. -/
theorem expands_of_ofText {m : Mapping} {position : Nat} {source : String}
    {rules : List AccessRule} (h : ofText m position source = .ok rules) :
    ∃ kinds e s₁ a s₂ rest s, Phrase.ruleOfText source = .ok
        (.node (.accessRule kinds) (.node (.entityName e) [] s₁
          :: .node (.identifier a) [] s₂ :: rest) s) ∧ IsWord a ∧
      (∀ r ∈ rules, ∃ c ∈ m.concreteClasses e, Expands m position source kinds e a rest c r) ∧
      ∀ c ∈ m.concreteClasses e, ∃ r ∈ rules, Expands m position source kinds e a rest c r := by
  obtain ⟨t, ht, h⟩ := ok_of_bind h
  obtain ⟨kinds, e, s₁, a, s₂, rest, s, rfl, ha, hrest⟩ := isRule_of_ruleOfText (ok_of_mapError ht)
  refine ⟨kinds, e, s₁, a, s₂, rest, s, ok_of_mapError ht, ha, ?_⟩
  simp only [Phrase.label, Phrase.child?, Phrase.children, List.getElem?_cons_zero,
    List.getElem?_cons_succ, Option.bind_some, identifier?] at h
  split at h
  · cases h
  · have hexpands : ∀ {c : EntityClass} {r : AccessRule}, (do
        let statement ← (Statement.ofPhrase (some m.model) (retarget c.name
          (.node (.accessRule kinds) (.node (.entityName e) [] s₁
            :: .node (.identifier a) [] s₂ :: rest) s))).mapError Fault.illScoped
        return ({
          position, source, declaredType := e, entityName := c.name, subject := a
          kinds := kindsOf kinds, statement } : AccessRule)) = .ok r →
        Expands m position source kinds e a rest c r := by
      intro c r hr
      obtain ⟨found, hfound, hr⟩ := ok_of_bind hr
      cases hr
      obtain ⟨hcondition, hchecked⟩ := statement_rule hrest (ok_of_mapError hfound)
      exact ⟨found, hcondition, hchecked, ⟨s₁, s₂, s, ok_of_mapError hfound⟩, rfl⟩
    constructor
    · intro r hr
      obtain ⟨c, hc, hr⟩ := exists_of_mem_mapM h hr
      exact ⟨c, hc, hexpands hr⟩
    · intro c hc
      obtain ⟨r, hr, hc⟩ := exists_mem_of_mapM h hc
      exact ⟨r, hr, hexpands hc⟩

/-- The condition of a rule names nothing freely but the subject, and it has passed the check
for the class of the rule. -/
theorem checked_condition {m : Mapping} {position : Nat} {source : String}
    {rules : List AccessRule} (h : ofText m position source = .ok rules) {r : AccessRule}
    (hr : r ∈ rules) {condition : Phrase} (hcondition : r.condition? = some condition) :
    Within (· = r.subject) condition ∧
      ∃ ss, check (some m.model) [.range r.subject r.entityName] condition = .ok ss := by
  obtain ⟨kinds, e, _, a, _, rest, _, -, -, hrules, -⟩ := expands_of_ofText h
  obtain ⟨c, -, found, hfound, hchecked, -, rfl⟩ := hrules r hr
  exact hchecked condition (hfound.symm.trans hcondition)

theorem says_of_ofText {m : Mapping} {position : Nat} {source : String}
    {rules : List AccessRule} (h : ofText m position source = .ok rules) :
    ∃ said : Reading, IsWord said.subject ∧
      (∀ t, said.condition? = some t → Within (· = said.subject) t) ∧
      ∀ r ∈ rules, r.position = position ∧ r.Says said ∧
        ∃ c ∈ m.concreteClasses r.declaredType, c.name = r.entityName := by
  obtain ⟨kinds, e, s₁, a, s₂, rest, s, -, ha, hrules, -⟩ := expands_of_ofText h
  by_cases hempty : rules = []
  · exact ⟨⟨kindsOf kinds, a, none⟩, ha, by simp, by simp [hempty]⟩
  · refine ⟨⟨kindsOf kinds, a, conditionIn rest⟩, ha, ?_, fun r hr => ?_⟩
    · obtain ⟨r, hr⟩ := List.exists_mem_of_ne_nil rules hempty
      obtain ⟨c, -, found, -, hchecked, -⟩ := hrules r hr
      exact fun t ht => (hchecked t ht).1
    · obtain ⟨c, hc, found, hcondition, -, -, rfl⟩ := hrules r hr
      exact ⟨rfl, ⟨rfl, rfl, hcondition⟩, c, hc, rfl⟩

end AccessRule

end RowGuard
