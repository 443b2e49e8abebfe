import Mathlib.Data.Option.Basic
import RowGuard.Proofs.Insertions
import RowGuard.Proofs.Queries
import RowGuard.Proofs.Policies

/-!
# Restricted statements are statements

A restriction puts conditions between brackets and adds them to the condition
that the statement has, in its place or behind the clause that a condition can
follow.  The grammar derives what has been read, its normal form, the conditions
of the rules and the paths of the objects, and so it derives the restricted
statement too.
-/

namespace RowGuard

open Query (AccessKind AliasDefinition Label Phrase Statement StatementKind isName)
open Query.Phrase
open Query.Grammar (Category Derives DerivesText isVariable)

/-! ## Conditions put together -/

namespace Query.Grammar

variable {c : Category} {t u : Phrase} {ts : List Phrase}

theorem derives_bracketed (h : Derives .condition t) : Derives .primary t.bracketed := by
  unfold Phrase.bracketed
  split
  · rename_i hlabel
    exact h.primary_of_isAtomic (by rw [hlabel]; rfl)
  · exact .brackets _ h

theorem derives_factor_of_primary (h : Derives .primary t) : Derives .factor t :=
  derives_factor_of_sum (derives_sum_of_primary h)

theorem derives_conjunction (h : ∀ t ∈ ts, Derives .primary t) (hne : ts ≠ []) :
    Derives .condition (conjunction ts) := by
  have hfactors : ∀ t ∈ ts, Derives .factor t := fun t ht => derives_factor_of_primary (h t ht)
  rcases ts with _ | ⟨t, _ | ⟨u, ts⟩⟩
  · exact absurd rfl hne
  · exact .term (.factor (hfactors t (by simp)))
  · exact .term (.and _ hfactors)

theorem derives_disjunction (h : ∀ t ∈ ts, Derives .primary t) (hne : ts ≠ []) :
    Derives .condition (disjunction ts) := by
  have hterms : ∀ t ∈ ts, Derives .term t :=
    fun t ht => .factor (derives_factor_of_primary (h t ht))
  rcases ts with _ | ⟨t, _ | ⟨u, ts⟩⟩
  · exact absurd rfl hne
  · exact .term (hterms t (by simp))
  · exact .or _ hterms

theorem derives_anyOf (h : ∀ t ∈ ts, Derives .condition t) (hne : ts ≠ []) :
    Derives .primary (Restriction.anyOf ts) := by
  refine derives_bracketed (derives_disjunction (fun u hu => ?_) (by simpa using hne))
  obtain ⟨t, ht, rfl⟩ := List.mem_map.mp hu
  exact derives_bracketed (h t ht)

/-! ## Statements recast -/

/-- Labels of statements and rules, and of what stands in them outside of their clauses. -/
def isOuter : Label → Bool
  | .selectStatement | .updateStatement | .updateClause | .setClause | .deleteStatement
  | .deleteClause | .accessRule _ | .entityName _ | .identifier _ => true
  | _ => false

theorem Derives.wellFormed_selectClause (h : Derives .selectClause t) : t.WellFormed := by
  obtain ⟨distinct, cs, s, rfl, hcs⟩ := h.shapes
  exact .compound s rfl hcs

/-- A statement or a rule whose clauses are recast, but for those that declare aliases. -/
theorem DerivesText.recast {k : Exchange} {f : Phrase → Phrase} (h : DerivesText t)
    (hk : k.Derivable)
    (hnode : ∀ {l : Label} (cs : List Phrase) (s : Source.Span), isOuter l →
      f (.node l cs s) = .node l (cs.map f) s)
    (hfrom : ∀ {u : Phrase}, Derives .fromClause u → f u = u)
    (hrecast : ∀ u ∈ t.nodes, u.WellFormed → Recast k u (f u)) : DerivesText (f t) := by
  have hclause : ∀ {c : Category} {u : Phrase}, u ∈ t.children → u.WellFormed → Derives c u →
      Derives c.loosened (f u) := by
    intro c u hu hwell hderives
    obtain ⟨l, cs, s⟩ := t
    exact hderives.recast hk (hrecast u (mem_nodes_of_child hu (mem_nodes_self u)) hwell)
  have hall : ∀ {c : Category} {o : Option Phrase}, (∀ u ∈ o, u ∈ t.children) →
      (∀ u ∈ o, u.WellFormed) → (∀ u ∈ o, Derives c u) → ∀ u ∈ o.map f, Derives c.loosened u :=
    fun hchild hwell hderives => Option.forall_mem_map.mpr fun u hu =>
      hclause (hchild u hu) (hwell u hu) (hderives u hu)
  have hrange : ∀ {l : Label} (e a : String) (s₁ s₂ s₃ : Source.Span), isOuter l →
      f (.node l [.node (.entityName e) [] s₁, .node (.identifier a) [] s₂] s₃) =
        .node l [.node (.entityName e) [] s₁, .node (.identifier a) [] s₂] s₃ := by
    intro l e a s₁ s₂ s₃ hl
    rw [hnode _ _ hl, List.map_cons, List.map_singleton, hnode _ _ rfl, hnode _ _ rfl]
    rfl
  cases h with
  | selectStatement s hselect hsource hrestriction hgrouping hhaving horder =>
      rw [hnode _ _ rfl]
      simp only [List.map_cons, List.map_append, ← Option.toList_map, hfrom hsource]
      exact .selectStatement s
        (hclause (by simp [Phrase.children]) hselect.wellFormed_selectClause hselect) hsource
        (hall (by simp +contextual [Phrase.children]) (fun u hu => (hrestriction u hu).shapes.1)
          hrestriction)
        (hall (by simp +contextual [Phrase.children]) (fun u hu => (hgrouping u hu).shapes.1)
          hgrouping)
        (hall (by simp +contextual [Phrase.children]) (fun u hu => (hhaving u hu).shapes.1) hhaving)
        (hall (by simp +contextual [Phrase.children]) (fun u hu => (horder u hu).shapes.1) horder)
  | updateStatement s₁ s₂ s₃ s₄ s he ha hassignments hrestriction =>
      rw [hnode _ _ rfl, List.map_cons, List.map_cons, hrange _ _ s₁ s₂ s₃ rfl, hnode _ _ rfl,
        ← Option.toList_map]
      refine .updateStatement s₁ s₂ s₃ s₄ s he ha (fun w hw => ?_)
        (hall (by simp +contextual [Phrase.children]) (fun u hu => (hrestriction u hu).shapes.1)
          hrestriction)
      obtain ⟨u, hu, rfl⟩ := List.mem_map.mp (List.map_cons ▸ hw)
      have hset : u ∈ (Phrase.node .setClause (_ :: _) s₄).nodes :=
        mem_nodes_of_child hu (mem_nodes_self u)
      exact (hassignments u hu).recast hk
        (hrecast u (mem_nodes_of_child (by simp) hset) (hassignments u hu).shapes)
  | deleteStatement s₁ s₂ s₃ s he ha hrestriction =>
      rw [hnode _ _ rfl, List.map_cons, hrange _ _ s₁ s₂ s₃ rfl, ← Option.toList_map]
      exact .deleteStatement s₁ s₂ s₃ s he ha
        (hall (by simp +contextual [Phrase.children]) (fun u hu => (hrestriction u hu).shapes.1)
          hrestriction)
  | accessRule s₁ s₂ s hkinds he ha hrestriction =>
      rw [hnode _ _ rfl, List.map_cons, List.map_cons, hnode _ _ rfl, hnode _ _ rfl,
        ← Option.toList_map]
      exact .accessRule s₁ s₂ s hkinds he ha
        (hall (by simp +contextual [Phrase.children]) (fun u hu => (hrestriction u hu).shapes.1)
          hrestriction)

/-! ## Normal forms -/

theorem Derives.normalize (h : Derives c t) {P : String → Prop} (hwell : Within P t) :
    Derives c.loosened t.normalize :=
  h.recast derivable_none hwell.recast_normalize

theorem Derives.normalize_fromClause (h : Derives .fromClause t) : t.normalize = t := by
  obtain ⟨items, s, rfl, hitems⟩ := h.shapes
  have hsame := normalizeAll_items (fun r hr => (hitems r hr).1) (isJoin_of_isItem hitems)
  rw [Phrase.normalize, hsame]
  rfl

theorem normalizeAll_toList (o : Option Phrase) :
    normalizeAll o.toList = (o.map Phrase.normalize).toList := by
  cases o <;> rfl

theorem Derives.normalize_where (h : Derives .whereClause t) : Derives .whereClause t.normalize :=
  h.normalize h.shapes.1

/-- The normal form of a statement or a rule is one as well. -/
theorem DerivesText.normalize (h : DerivesText t) : DerivesText t.normalize := by
  refine h.recast derivable_none (fun {l} cs s hl => ?_) (fun hu => hu.normalize_fromClause)
    fun u _ hu => hu.recast_normalize
  rw [Phrase.normalize, normalizeAll_eq_map]
  cases l <;> first | rfl | cases hl

end Query.Grammar

/-! ## A condition set -/

namespace Restriction

open Query.Grammar

variable {condition : Phrase}

theorem replaceCondition_of_ne {t : Phrase} (ht : t.label ≠ .whereClause) (ts : List Phrase) :
    replaceCondition condition (t :: ts) = t :: replaceCondition condition ts := by
  obtain ⟨l, ds, s⟩ := t
  cases l <;> first | rfl | exact absurd rfl ht

/-- Clauses none of which has a condition. -/
theorem setCondition_of_none {l : Label} {ts : List Phrase} {s : Source.Span}
    (h : ∀ t ∈ ts, t.label ≠ .whereClause) :
    setCondition condition (.node l ts s) =
      .node l (insertClause (whereClause condition) ts) s := by
  have hnone : (ts.any fun c => c.label == .whereClause) = false :=
    List.any_eq_false.mpr fun t ht => by simpa using h t ht
  rw [setCondition, if_neg (by simp [hnone])]

theorem setCondition_of_where {l : Label} {before after ds : List Phrase} {s s' : Source.Span}
    (h : ∀ t ∈ before, t.label ≠ .whereClause) :
    setCondition condition (.node l (before ++ .node .whereClause ds s' :: after) s) =
      .node l (before ++ .node .whereClause [condition] s' :: after) s := by
  have hsome : (before ++ .node .whereClause ds s' :: after).any
      fun c => c.label == .whereClause := by simp [Phrase.label]
  rw [setCondition, if_pos hsome]
  congr 1
  clear hsome
  induction before with
  | nil => rfl
  | cons t before ih =>
      obtain ⟨ht, hbefore⟩ := List.forall_mem_cons.mp h
      rw [List.cons_append, replaceCondition_of_ne ht, ih hbefore, List.cons_append]

end Restriction

/-! ## Statements around their conditions -/

/-- A statement but for the clause of its condition. -/
structure Frame where
  label : Label
  before : List Phrase
  after : List Phrase
  span : Source.Span

namespace Frame

/-- The statement with a clause in the place of its condition, or with none. -/
def fill (f : Frame) (clause? : Option Phrase) : Phrase :=
  .node f.label (f.before ++ (clause?.toList ++ f.after)) f.span

/-- The frame of statements that the grammar derives, whatever condition they have. -/
structure Admits (f : Frame) : Prop where
  conditionless : ∀ u ∈ f.before ++ f.after, u.label ≠ .whereClause
  insert (clause : Phrase) : Restriction.insertClause clause (f.before ++ f.after) =
    f.before ++ clause :: f.after
  derives (clause? : Option Phrase) : (∀ w ∈ clause?, Derives .whereClause w) →
    DerivesText (f.fill clause?)
  /-- Nothing is declared by the condition. -/
  declares (model? : Option Query.TypeModel) {kind : StatementKind} (outer : List AliasDefinition)
    {clause? : Option Phrase} : StatementKind.ofLabel? f.label = some kind →
    (∀ w ∈ clause?, w.label = .whereClause) →
      Query.Scope.declarations model? kind outer (f.fill clause?) =
        Query.Scope.declarations model? kind outer (f.fill none)

variable {f : Frame}

theorem Admits.conditionOf? (h : f.Admits) {clause? : Option Phrase}
    (hclause : ∀ w ∈ clause?, Derives .whereClause w) :
    (f.fill clause?).conditionOf? = clause?.bind fun w => w.children.head? := by
  have hfirst : (f.fill clause?).findChild? (· = .whereClause) = clause? := by
    have hbefore : ∀ u ∈ f.before, ¬decide (u.label = .whereClause) = true :=
      fun u hu => by simpa using h.conditionless u (List.mem_append_left _ hu)
    have hafter : ∀ u ∈ f.after, ¬decide (u.label = .whereClause) = true :=
      fun u hu => by simpa using h.conditionless u (List.mem_append_right _ hu)
    rw [findChild?, fill, Phrase.children, List.find?_append, List.find?_eq_none.mpr hbefore,
      Option.none_or, List.find?_append, List.find?_eq_none.mpr hafter, Option.or_none]
    cases clause? with
    | none => rfl
    | some w =>
        cases hclause w rfl
        rfl
  rw [Phrase.conditionOf?, hfirst]
  rfl

/-- Setting the condition of a statement fills its frame. -/
theorem Admits.setCondition (h : f.Admits) {clause? : Option Phrase}
    (hclause : ∀ w ∈ clause?, Derives .whereClause w) (condition : Phrase) :
    ∃ s, Restriction.setCondition condition (f.fill clause?) =
      f.fill (some (.node .whereClause [condition] s)) := by
  cases clause? with
  | none =>
      refine ⟨Source.Span.none, ?_⟩
      rw [fill, Option.toList_none, List.nil_append,
        Restriction.setCondition_of_none h.conditionless, h.insert]
      rfl
  | some w =>
      cases hclause w rfl with
      | whereClause s _ =>
          exact ⟨s, Restriction.setCondition_of_where fun t ht =>
            h.conditionless t (List.mem_append_left _ ht)⟩

end Frame

theorem Query.Grammar.DerivesText.exists_frame {t : Phrase} (h : DerivesText t) :
    ∃ (f : Frame) (clause? : Option Phrase), t = f.fill clause? ∧
      (∀ w ∈ clause?, Derives .whereClause w) ∧ f.Admits := by
  cases h with
  | @selectStatement select source restriction grouping having order s hselect hsource hrestriction
      hgrouping hhaving horder =>
      refine ⟨⟨.selectStatement, [select, source], grouping.toList ++ having.toList ++ order.toList,
        s⟩, restriction, by simp [Frame.fill], hrestriction, ?_, fun clause => ?_, fun o ho => ?_,
        fun model? kind outer o hkind _ => ?_⟩
      · intro u hu
        simp only [List.cons_append, List.nil_append, List.mem_cons, List.mem_append,
          Option.mem_toList] at hu
        rcases hu with rfl | rfl | (hu | hu) | hu
        · obtain ⟨distinct, cs, s, rfl, -⟩ := hselect.shapes
          simp [Phrase.label]
        · obtain ⟨items, s, rfl, -⟩ := hsource.shapes
          simp [Phrase.label]
        · rw [(hgrouping u hu).shapes.2]
          simp
        · rw [(hhaving u hu).shapes.2]
          simp
        · rw [(horder u hu).shapes.2]
          simp
      · obtain ⟨distinct, cs, s₁, rfl, -⟩ := hselect.shapes
        obtain ⟨items, s₂, rfl, -⟩ := hsource.shapes
        rfl
      · have htext := DerivesText.selectStatement s hselect hsource ho hgrouping hhaving horder
        simpa [Frame.fill] using htext
      · obtain ⟨distinct, cs, s₁, rfl, -⟩ := hselect.shapes
        obtain ⟨items, s₂, rfl, -⟩ := hsource.shapes
        cases hkind
        rfl
  | @updateStatement e a t ts restriction s₁ s₂ s₃ s₄ s he ha hassignments hrestriction =>
      refine ⟨⟨.updateStatement, [.node .updateClause [.node (.entityName e) [] s₁,
        .node (.identifier a) [] s₂] s₃, .node .setClause (t :: ts) s₄], [], s⟩, restriction,
        by simp [Frame.fill], hrestriction, by simp [Phrase.label], fun clause => rfl,
        fun o ho => ?_, fun model? kind outer o hkind _ => by cases hkind; rfl⟩
      have htext := DerivesText.updateStatement s₁ s₂ s₃ s₄ s he ha hassignments ho
      simpa [Frame.fill] using htext
  | @deleteStatement e a restriction s₁ s₂ s₃ s he ha hrestriction =>
      refine ⟨⟨.deleteStatement, [.node .deleteClause [.node (.entityName e) [] s₁,
        .node (.identifier a) [] s₂] s₃], [], s⟩, restriction,
        by simp [Frame.fill], hrestriction, by simp [Phrase.label], fun clause => rfl,
        fun o ho => ?_, fun model? kind outer o hkind _ => by cases hkind; rfl⟩
      have htext := DerivesText.deleteStatement s₁ s₂ s₃ s he ha ho
      simpa [Frame.fill] using htext
  | @accessRule kinds e a restriction s₁ s₂ s hkinds he ha hrestriction =>
      refine ⟨⟨.accessRule kinds, [.node (.entityName e) [] s₁, .node (.identifier a) [] s₂], [],
        s⟩, restriction, by simp [Frame.fill], hrestriction, by simp [Phrase.label],
        fun clause => rfl, fun o ho => ?_, fun model? kind outer o hkind ho => ?_⟩
      · have htext := DerivesText.accessRule s₁ s₂ s hkinds he ha ho
        simpa [Frame.fill] using htext
      · cases hkind
        -- Behind the alias of a rule stand the joins of a range, and a condition is none.
        rcases o with _ | ⟨l, cs, r⟩
        · rfl
        · cases ho _ rfl
          rfl

/-! ## Names that can be written -/

namespace Query.Grammar

/-- Labels of phrases that are neither names nor values nor queries of their own. -/
def isOrdinary : Label → Bool
  | .identifier _ | .segment _ | .subselect => false
  | l => !l.isLeaf

theorem isOrdinary_of_isCompound {l : Label} (h : l.isCompound) : isOrdinary l := by
  cases l <;> first | rfl | cases h

/-- What is so of names that can be written, of values, of derived subselects, and of whatever
else is made of its children. -/
structure Common (P : Phrase → Prop) : Prop where
  identifier : ∀ x s, isVariable x → P (.node (.identifier x) [] s)
  segment : ∀ w s, isName w → P (.node (.segment w) [] s)
  leaf : ∀ l s, l.isLeaf → P (.node l [] s)
  subselect : ∀ ts s, Derives .subselect (.node .subselect ts s) → P (.node .subselect ts s)
  other : ∀ l ts s, isOrdinary l → P (.node l ts s)

/-- The property holds at every node. -/
def Throughout (P : Phrase → Prop) (t : Phrase) : Prop := ∀ n ∈ t.nodes, P n

section Throughout

variable {P : Phrase → Prop} {t : Phrase} {ts : List Phrase} {l : Label}

theorem throughout_node {s : Source.Span} (hnode : P (.node l ts s))
    (h : ∀ t ∈ ts, Throughout P t) : Throughout P (.node l ts s) := by
  intro n hn
  rcases mem_nodes_node.mp hn with rfl | ⟨t, ht, hn⟩
  · exact hnode
  · exact h t ht n hn

theorem throughout_optional {o : Option Phrase} (h : ∀ t ∈ o, Throughout P t) :
    ∀ t ∈ o.toList, Throughout P t :=
  fun t ht => h t (Option.mem_toList.mp ht)

variable (hP : Common P)
include hP

theorem Common.name {x : String} (hx : isVariable x) (s : Source.Span) :
    Throughout P (.node (.identifier x) [] s) :=
  throughout_node (hP.identifier x s hx) (by simp)

theorem Common.literal (hl : l.isLeaf) (s : Source.Span) : Throughout P (.node l [] s) :=
  throughout_node (hP.leaf l s hl) (by simp)

theorem Common.parent (hl : isOrdinary l) (s : Source.Span) (h : ∀ t ∈ ts, Throughout P t) :
    Throughout P (.node l ts s) :=
  throughout_node (hP.other l ts s hl) h

theorem Common.segments {segments : List Phrase} {ws : List String}
    (h : AreSegments segments ws) (hnames : ∀ w ∈ ws, isName w) :
    ∀ t ∈ segments, Throughout P t := by
  induction h with
  | nil => simp
  | @cons w segments ws s _ _ ih =>
      obtain ⟨hw, hws⟩ := List.forall_mem_cons.mp hnames
      exact List.forall_mem_cons.mpr ⟨throughout_node (hP.segment w s hw) (by simp), ih hws⟩

/-- An entity name and an alias, and what comes behind them. -/
theorem Common.range {e a : String} (ha : isVariable a) (h : ∀ t ∈ ts, Throughout P t)
    (s₁ s₂ : Source.Span) :
    ∀ t ∈ Phrase.node (.entityName e) [] s₁ :: .node (.identifier a) [] s₂ :: ts,
      Throughout P t :=
  List.forall_mem_cons.mpr ⟨hP.parent rfl s₁ (by simp),
    List.forall_mem_cons.mpr ⟨hP.name ha s₂, h⟩⟩

/-- What is common to the phrases of the grammar holds throughout each of them. -/
theorem Derives.throughout {c : Category} (h : Derives c t) : Throughout P t := by
  induction h with
  | name s hx => exact hP.name hx s
  | path r s hx hsegments hnames =>
      exact hP.parent rfl s (List.forall_mem_cons.mpr
        ⟨hP.name hx r, hP.segments hsegments hnames⟩)
  | literal s _ hl => exact hP.literal (isLeaf_of_literalLabel? hl) s
  | keyword s hl => exact hP.literal (isLeaf_of_keywordLabel? hl) s
  | call s hf _ _ ih =>
      exact hP.parent (isOrdinary_of_isCompound (isCompound_of_signature? hf)) s ih
  | reference _ ih | subselect _ ih | unsigned _ ih | single _ ih | summand _ ih | operand _ ih
  | test _ ih | simple _ ih | factor _ ih | term _ ih | item _ ih => exact ih
  | brackets s _ ih | aggregate _ _ s _ ih | trim _ s _ ih | negative s _ ih | isNull s _ ih
  | isEmpty s _ ih | negated s _ ih | exist s _ ih | not s _ ih | orderByItem _ s _ ih
  | join _ _ s _ ih | whereClause s _ ih | havingClause s _ ih =>
      exact hP.parent rfl s (List.forall_mem_singleton.mpr ih)
  | trimOff _ s _ _ ih₁ ih₂ | multiply s _ _ _ ih₁ ih₂ | add s _ _ _ ih₁ ih₂
  | isInSubselect s _ _ ih₁ ih₂ | like s _ _ ih₁ ih₂ | memberOf s _ _ ih₁ ih₂
  | compare _ s _ _ ih₁ ih₂ | assignment s _ _ ih₁ ih₂ =>
      exact hP.parent rfl s (by simpa using ⟨ih₁, ih₂⟩)
  | between s _ _ _ ih₁ ih₂ ih₃ | likeEscape s _ _ _ ih₁ ih₂ ih₃ =>
      exact hP.parent rfl s (by simpa using ⟨ih₁, ih₂, ih₃⟩)
  | isIn s _ _ _ ihv ih => exact hP.parent rfl s (List.forall_mem_cons.mpr ⟨ihv, ih⟩)
  | and s _ ih | or s _ ih | newObject s _ _ ih | selectClause _ s _ ih | fromClause s _ ih
  | groupByClause s _ ih | orderByClause s _ ih => exact hP.parent rfl s ih
  | joinNamed _ _ s r _ ha ih =>
      exact hP.parent rfl s (by simpa using ⟨ih, hP.name ha r⟩)
  | fromItem s₁ s₂ s _ ha _ ih => exact hP.parent rfl s (hP.range ha ih s₁ s₂)
  | query s hselect hsource hrestriction hgrouping hhaving ihselect ihsource ihrestriction
      ihgrouping ihhaving =>
      refine throughout_node
        (hP.subselect _ s (.query s hselect hsource hrestriction hgrouping hhaving)) ?_
      simp only [List.forall_mem_cons, List.forall_mem_append]
      exact ⟨ihselect, ihsource,
        ⟨throughout_optional ihrestriction, throughout_optional ihgrouping⟩,
        throughout_optional ihhaving⟩

/-- The same for the phrases of whole texts. -/
theorem DerivesText.throughout (h : DerivesText t) : Throughout P t := by
  have hall : ∀ {c : Category} {o : Option Phrase}, (∀ t ∈ o, Derives c t) →
      ∀ t ∈ o.toList, Throughout P t :=
    fun ho => throughout_optional fun t ht => (ho t ht).throughout hP
  cases h with
  | selectStatement s hselect hsource hrestriction hgrouping hhaving horder =>
      refine hP.parent rfl s ?_
      simp only [List.forall_mem_cons, List.forall_mem_append]
      exact ⟨hselect.throughout hP, hsource.throughout hP,
        ⟨⟨hall hrestriction, hall hgrouping⟩, hall hhaving⟩, hall horder⟩
  | updateStatement s₁ s₂ s₃ s₄ s he ha hassignments hrestriction =>
      refine hP.parent rfl s ?_
      simp only [List.forall_mem_cons]
      exact ⟨hP.parent rfl s₃ (hP.range ha (by simp) s₁ s₂),
        hP.parent rfl s₄ fun u hu => (hassignments u hu).throughout hP, hall hrestriction⟩
  | deleteStatement s₁ s₂ s₃ s he ha hrestriction =>
      exact hP.parent rfl s (List.forall_mem_cons.mpr
        ⟨hP.parent rfl s₃ (hP.range ha (by simp) s₁ s₂), hall hrestriction⟩)
  | accessRule s₁ s₂ s _ he ha hrestriction =>
      exact hP.parent rfl s (hP.range ha (hall hrestriction) s₁ s₂)

end Throughout

/-- All names in the phrase can be written where they stand. -/
def LegalNames (t : Phrase) : Prop := ∀ n ∈ t.nodes,
  (∀ x, n.label = .identifier x → isVariable x) ∧ ∀ w, n.label = .segment w → isName w

/-- The names of what the grammar derives can be written. -/
theorem Derives.legalNames {c : Category} {t : Phrase} (h : Derives c t) : LegalNames t := by
  refine h.throughout ⟨?_, ?_, ?_, ?_, ?_⟩
  · exact fun x s hx => ⟨fun y hy => by cases hy; exact hx, fun w hw => by cases hw⟩
  · exact fun w s hw => ⟨fun x hx => (by cases hx), fun v hv => by cases hv; exact hw⟩
  · rintro l s hl
    constructor <;> rintro x rfl <;> cases hl
  · rintro ts s -
    constructor <;> rintro x ⟨⟩
  · rintro l ts s hl
    constructor <;> rintro x rfl <;> cases hl

/-- A subselect in what the grammar derives is derived as well. -/
theorem common_subselects : Common fun n => n.label = .subselect → Derives .subselect n where
  identifier _ _ _ h := nomatch h
  segment _ _ _ h := nomatch h
  leaf l s hl h := by
    obtain rfl : l = .subselect := h
    cases hl
  subselect _ _ h _ := h
  other l ts s hl h := by
    obtain rfl : l = .subselect := h
    cases hl

theorem LegalNames.of_mem_nodes {t u : Phrase} (h : LegalNames t) (hu : u ∈ t.nodes) :
    LegalNames u := fun n hn => h n (mem_nodes_trans hu hn)

/-- The words of a reference among legal names are legal. -/
theorem LegalNames.words {t : Phrase} {x : String} {ws : List String} (h : LegalNames t)
    (ht : t.IsReference x ws) : isVariable x ∧ ∀ w ∈ ws, isName w := by
  cases ht with
  | name s _ => exact ⟨(h _ (mem_nodes_self _)).1 x rfl, by simp⟩
  | path r s _ hsegments =>
      have hroot := h.of_mem_nodes (mem_nodes_of_child List.mem_cons_self (mem_nodes_self _))
      refine ⟨(hroot _ (mem_nodes_self _)).1 x rfl, ?_⟩
      have hlegal : ∀ {segments : List Phrase} {ws : List String}, AreSegments segments ws →
          (∀ u ∈ segments, LegalNames u) → ∀ w ∈ ws, isName w := by
        intro segments ws hsegments
        induction hsegments with
        | nil => simp
        | @cons w _ _ _ _ _ ih =>
            intro hall
            obtain ⟨hw, hrest⟩ := List.forall_mem_cons.mp hall
            exact List.forall_mem_cons.mpr ⟨(hw _ (mem_nodes_self _)).2 w rfl, ih hrest⟩
      exact hlegal hsegments fun u hu =>
        h.of_mem_nodes (mem_nodes_of_child (List.mem_cons_of_mem _ hu) (mem_nodes_self u))

theorem derives_ofDotted {x : String} {ws : List String} (hx : isVariable x)
    (hws : ∀ w ∈ ws, isName w) :
    Derives .reference (ofDotted (Text.Dotted.join (x :: ws))) := by
  have hparts : ∀ w ∈ x :: ws, IsWord w := List.forall_mem_cons.mpr
    ⟨isWord_of_isVariable hx, fun w hw => isWord_of_isName (hws w hw)⟩
  obtain ⟨hfirst, hothers⟩ := Text.Dotted.parts_join_words hparts
  unfold ofDotted
  rw [hfirst, hothers]
  cases ws with
  | nil => exact .name _ hx
  | cons w ws =>
      exact .path _ _ hx (AreSegments.build fun v hv => hparts v (List.mem_cons_of_mem x hv)) hws

end Query.Grammar

/-! ## Paths of objects -/

section Queries

open Query.Grammar

variable {m : Mapping} {model? : Option Query.TypeModel} {source : String} {t : Phrase}
  {s : Statement}

/-- The grammar derives what is checked as a statement. -/
theorem Query.Statement.derivesText (ht : Phrase.ofText source = .ok t)
    (hs : Statement.ofPhrase model? t = .ok s) : DerivesText s.phrase := by
  obtain ⟨definitions, subselects, heq⟩ := eq_assemble_of_ofPhrase hs
  rw [heq]
  exact (derivesText_of_ofText ht).normalize

/-- A checked statement has been checked as it stands. -/
theorem Query.Statement.statement_of_ofPhrase (hs : Statement.ofPhrase model? t = .ok s) :
    StatementKind.ofLabel? s.phrase.label = some s.kind ∧
      Query.Scope.statement model? s.kind [] s.phrase = .ok s := by
  unfold ofPhrase at hs
  simp only at hs
  split at hs
  · rename_i kind hkind
    have h := hs
    obtain ⟨definitions, -, h⟩ := Query.Scope.ok_of_bind h
    obtain ⟨subselects, -, h⟩ := Query.Scope.ok_of_bind h
    cases h
    exact ⟨hkind, hs⟩
  · cases hs

theorem Query.Phrase.Exposes.mem_nodes {t u : Phrase} (h : Exposes t u) : u ∈ t.nodes := by
  induction h with
  | self => exact mem_nodes_self _
  | inside _ _ hmem _ ih => exact mem_nodes_of_child hmem ih

/-- Statements other than queries select the object that they are about. -/
theorem Query.Statement.selectedPaths_of_range {l : Query.Label} {e a : String}
    {rest : List Phrase} {s₁ s₂ s₃ : Source.Span}
    (hs : Query.Scope.statement model? s.kind [] s.phrase = .ok s)
    (hkind : s.kind ≠ .select ∧ s.kind ≠ .subselect)
    (hranges : Query.Scope.ranges s.kind s.phrase = [.node l
      (.node (.entityName e) [] s₁ :: .node (.identifier a) [] s₂ :: rest) s₃])
    (hrest : ∀ t ∈ rest, t.label.isFinalClause) : s.selectedPaths = [a] := by
  obtain ⟨definitions, hdefinitions, hs⟩ := Query.Scope.ok_of_bind hs
  obtain ⟨subselects, -, hs⟩ := Query.Scope.ok_of_bind hs
  rw [← Except.ok.inj hs, AccessRule.declarations_of_range hranges hrest hdefinitions]
  generalize s.kind = kind at hkind
  cases kind <;> simp_all [assemble, AliasDefinition.range]

/-- What a statement selects is a path that can be written. -/
theorem Query.Statement.exists_legal_path (ht : Phrase.ofText source = .ok t)
    (hs : Statement.ofPhrase model? t = .ok s) {selected : String} (h : selected ∈ s.selectedPaths) :
    ∃ x ws, selected = Text.Dotted.join (x :: ws) ∧ isVariable x ∧ ∀ w ∈ ws, isName w := by
  obtain ⟨hkind, hstatement⟩ := statement_of_ofPhrase hs
  have hself : ∀ {a : String}, isVariable a → s.selectedPaths = [a] →
      ∃ x ws, selected = Text.Dotted.join (x :: ws) ∧ isVariable x ∧ ∀ w ∈ ws, isName w := by
    intro a ha hpaths
    rw [hpaths, List.mem_singleton] at h
    exact ⟨a, [], by simp [h, Text.Dotted.join], ha, by simp⟩
  have hderives := derivesText ht hs
  generalize hp : s.phrase = p at hderives
  rw [hp] at hkind hstatement
  cases hderives with
  | selectStatement _ hselect _ _ _ _ _ =>
      obtain ⟨u, ⟨clause, item, hclause, hitem, hu⟩, hselected⟩ :=
        (mem_selectedPaths hs (Option.some.inj hkind).symm).mp h
      obtain ⟨distinct, cs, _, rfl, hcs⟩ := hselect.shapes
      rw [hp] at hclause
      cases hclause
      obtain ⟨x, ws, href, -⟩ := (hu.wellFormed (hcs item hitem)).isReference hselected
      have hlegal := hselect.legalNames.of_mem_nodes (mem_nodes_of_child hitem hu.mem_nodes)
      obtain ⟨hx, hws⟩ := hlegal.words href
      exact ⟨x, ws, Option.some.inj (hselected.symm.trans href.dotted?_eq), hx, hws⟩
  | updateStatement _ _ _ _ _ _ ha =>
      have hupdate := (Option.some.inj hkind).symm
      exact hself ha (selectedPaths_of_range (by rw [hp, hstatement]) (by simp [hupdate])
        (by rw [hp, hupdate]; rfl) (by simp))
  | deleteStatement _ _ _ _ _ ha =>
      have hdelete := (Option.some.inj hkind).symm
      exact hself ha (selectedPaths_of_range (by rw [hp, hstatement]) (by simp [hdelete])
        (by rw [hp, hdelete]; rfl) (by simp))
  | accessRule _ _ _ _ _ ha hrestriction =>
      have hrule := (Option.some.inj hkind).symm
      exact hself ha (selectedPaths_of_range (by rw [hp, hstatement]) (by simp [hrule])
        (by rw [hp, hrule]; rfl) fun t ht => by
          rw [(hrestriction t (Option.mem_toList.mp ht)).shapes.2]
          rfl)

/-- Along an object path the mapping tells the types. -/
theorem Restriction.longestPrefix_typed (x type : String) (ws done : List String) :
    ∃ ps target, ps <+: ws ∧ longestPrefix m (Text.Dotted.join (x :: done)) type ws =
        (Text.Dotted.join (x :: (done ++ ps)), target) ∧
      Query.Scope.typeAlong m.model (some type) ps = some (some target) := by
  induction ws generalizing type done with
  | nil => exact ⟨[], type, List.nil_prefix, by simp [longestPrefix], rfl⟩
  | cons w ws ih =>
      unfold longestPrefix
      split
      · rename_i next hnext
        obtain ⟨ps, target, hps, hpath, htypes⟩ := ih next (done ++ [w])
        rw [Text.Dotted.join_concat]
        refine ⟨w :: ps, target, List.cons_prefix_cons.mpr ⟨rfl, hps⟩, by simpa using hpath, ?_⟩
        have hmodel : m.model.propertyType? type w = some (.entity next) := hnext
        simp only [Query.Scope.typeAlong, hmodel]
        exact htypes
      · exact ⟨[], type, List.nil_prefix, by simp, rfl⟩

/-- An object path can be written, and its alias and the mapping tell its type. -/
theorem Restriction.exists_legal_path (ht : Phrase.ofText source = .ok t)
    (hs : Statement.ofPhrase model? t = .ok s) {path type : String}
    (h : (path, type) ∈ objectPaths m s) :
    ∃ x ps d own, path = Text.Dotted.join (x :: ps) ∧ isVariable x ∧ (∀ w ∈ ps, isName w) ∧
      s.definition? x = some d ∧ d.type? = some own ∧
      Query.Scope.typeAlong m.model (some own) ps = some (some type) := by
  obtain ⟨selected, hselected, hpath⟩ := mem_objectPaths.mp h
  obtain ⟨x, ws, rfl, hx, hws⟩ := Query.Statement.exists_legal_path ht hs hselected
  obtain ⟨d, own, hd, hown, hstart⟩ := objectPath?_eq_some.mp hpath
  have hwords : ∀ w ∈ x :: ws, IsWord w := List.forall_mem_cons.mpr
    ⟨isWord_of_isVariable hx, fun w hw => isWord_of_isName (hws w hw)⟩
  obtain ⟨hfirst, hothers⟩ := Text.Dotted.parts_join_words hwords
  rw [hfirst] at hd hstart
  rw [hothers] at hstart
  obtain ⟨ps, target, hps, heq, htypes⟩ := longestPrefix_typed (m := m) x own ws []
  rw [show Text.Dotted.join [x] = x by simp [Text.Dotted.join], hstart] at heq
  cases heq
  exact ⟨x, ps, d, own, rfl, hx, fun w hw => hws w (hps.subset hw), hd, hown, htypes⟩

end Queries

/-! ## Conditions of rules -/

/-- The condition that a text gives its rules is derived as one. -/
theorem AccessRule.derives_condition {m : Mapping} {position : Nat} {source : String}
    {rules : List AccessRule} (h : ofText m position source = .ok rules) {r : AccessRule}
    (hr : r ∈ rules) {condition : Phrase} (hcondition : r.condition? = some condition) :
    Derives .condition condition := by
  obtain ⟨kinds, e, s₁, a, s₂, rest, s, hread, -, hrules, -⟩ := expands_of_ofText h
  obtain ⟨c, -, found, hfound, -, -, rfl⟩ := hrules r hr
  obtain ⟨hderives, -⟩ := Query.Grammar.derivesRule_of_ruleOfText hread
  generalize hp : Phrase.node (.accessRule kinds) (.node (.entityName e) [] s₁
    :: .node (.identifier a) [] s₂ :: rest) s = p at hderives
  cases hderives with
  | accessRule _ _ _ _ _ _ hrestriction =>
      cases hp
      rw [show AccessRule.condition? _ = found.condition? from rfl, hfound, conditionIn,
        Query.Grammar.normalizeAll_toList] at hcondition
      obtain ⟨clause, hclause, hhead⟩ := Option.bind_eq_some_iff.mp hcondition
      obtain ⟨w, hw, rfl⟩ := Option.map_eq_some_iff.mp
        (Option.mem_toList.mp (List.mem_of_find?_eq_some hclause))
      have hnormal := (hrestriction w hw).normalize_where
      generalize w.normalize = v at hnormal hhead
      cases hnormal
      cases hhead
      assumption
  | selectStatement => cases hp
  | updateStatement => cases hp
  | deleteStatement => cases hp

/-- A rule comes from one of the texts. -/
theorem Policy.exists_text {m : Mapping} {position : Nat} {texts : List String}
    {rules : List AccessRule} (h : textsFrom m position texts = .ok rules) {r : AccessRule}
    (hr : r ∈ rules) : ∃ position source expanded,
      AccessRule.ofText m position source = .ok expanded ∧ r ∈ expanded := by
  induction texts generalizing position rules with
  | nil =>
      cases h
      cases hr
  | cons text texts ih =>
      obtain ⟨first, hfirst, h⟩ := Query.Scope.ok_of_bind h
      obtain ⟨others, hothers, h⟩ := Query.Scope.ok_of_bind h
      cases h
      rcases List.mem_append.mp hr with hr | hr
      · exact ⟨position, text, first, hfirst, hr⟩
      · exact ih hothers hr

theorem Policy.derives_condition {m : Mapping} {texts : List String} {policy : Policy}
    (h : Policy.ofTexts m texts = .ok policy) {r : AccessRule} (hr : r ∈ policy.rules)
    {condition : Phrase} (hcondition : r.condition? = some condition) :
    Derives .condition condition := by
  obtain ⟨rules, hrules, h⟩ := Query.Scope.ok_of_bind h
  cases h
  obtain ⟨position, source, expanded, hexpanded, hr⟩ := Policy.exists_text hrules hr
  exact AccessRule.derives_condition hexpanded hr hcondition

/-! ## Restricted statements -/

namespace Restriction

open Query.Grammar

variable {ev : Evaluator} {policy : Policy} {kind : AccessKind} {c : SecurityContext}
  {now : Timestamp} {texts : List String} {source : String} {t : Phrase} {s : Statement}

/-- What is demanded of the rows of a statement can stand in a conjunction. -/
theorem derives_demands (hs : s.condition? = s.phrase.conditionOf?)
    (hderives : DerivesText s.phrase) {found : List Phrase}
    (hfound : ∀ u ∈ found, Derives .primary u) : ∀ u ∈ demands s found, Derives .primary u := by
  obtain ⟨f, clause?, hfill, hclause, hadmits⟩ := hderives.exists_frame
  intro u hu
  rcases List.mem_append.mp hu with hu | hu
  · obtain ⟨condition, hcondition, rfl⟩ := Option.map_eq_some_iff.mp (Option.mem_toList.mp hu)
    rw [hs, hfill, hadmits.conditionOf? hclause] at hcondition
    obtain ⟨w, hw, hhead⟩ := Option.bind_eq_some_iff.mp hcondition
    have hderived := hclause w hw
    cases hderived
    cases hhead
    exact derives_bracketed (by assumption)
  · exact hfound u hu

/-- A restricted statement is the statement around the conjunction of all demands. -/
theorem exists_addRestrictions (hderives : DerivesText s.phrase) {found : List Phrase}
    (hne : found ≠ []) : ∃ (f : Frame) (clause? : Option Phrase) (r : Source.Span),
      f.Admits ∧ (∀ w ∈ clause?, Derives .whereClause w) ∧ s.phrase = f.fill clause? ∧
        addRestrictions s found =
          f.fill (some (.node .whereClause [conjunction (demands s found)] r)) := by
  obtain ⟨f, clause?, hfill, hclause, hadmits⟩ := hderives.exists_frame
  obtain ⟨r, hset⟩ := hadmits.setCondition hclause (conjunction (demands s found))
  refine ⟨f, clause?, r, hadmits, hclause, hfill, ?_⟩
  unfold addRestrictions
  rw [if_neg (by simpa using hne), ← hset, ← hfill]
  rfl

/-- A restricted statement is derived as the statement is. -/
theorem derives_addRestrictions (hs : s.condition? = s.phrase.conditionOf?)
    (hderives : DerivesText s.phrase) {found : List Phrase}
    (hfound : ∀ u ∈ found, Derives .primary u) : DerivesText (addRestrictions s found) := by
  by_cases hne : found = []
  · subst hne
    exact hderives
  · obtain ⟨f, clause?, r, hadmits, -, -, heq⟩ := exists_addRestrictions hderives hne
    rw [heq]
    refine hadmits.derives _ ?_
    rintro w ⟨⟩
    refine .whereClause r (derives_conjunction (derives_demands hs hderives hfound) fun h => hne ?_)
    exact (List.append_eq_nil_iff.mp h).2

/-- The grammar derives the paths that are restricted. -/
theorem derives_objectPath {model? : Option Query.TypeModel} {m : Mapping}
    (ht : Phrase.ofText source = .ok t) (hs : Statement.ofPhrase model? t = .ok s)
    {p : String × String} (h : p ∈ objectPaths m s) : Derives .reference (ofDotted p.1) := by
  obtain ⟨x, ps, -, -, heq, hx, hps, -⟩ := Restriction.exists_legal_path ht hs h
  rw [heq]
  exact derives_ofDotted hx hps

theorem derives_ruleCondition (hpolicy : Policy.ofTexts ev.mapping texts = .ok policy)
    {type : String} {r : AccessRule} (h : r ∈ policy.rulesForType ev.mapping type kind) :
    ∀ condition, r.condition? = some condition → Derives .condition condition :=
  fun _ hcondition =>
    Policy.derives_condition hpolicy (Policy.covers_of_mem_rulesForType h).1 hcondition

/-- A restriction asks for what the rules that depend on the object put in for each path. -/
theorem Restricted.puts (hpolicy : Policy.ofTexts ev.mapping texts = .ok policy)
    (ht : Phrase.ofText source = .ok t)
    (hs : Statement.ofPhrase (some ev.mapping.model) t = .ok s) {found : List Phrase}
    {final : ContextParameters}
    (h : Restricted ev policy kind c now (declaredAnywhere s) (objectPaths ev.mapping s)
      { taken := s.parameters } found final) :
    ∀ u ∈ found, ∃ p ∈ objectPaths ev.mapping s, ∃ cs, u = anyOf cs ∧ cs ≠ [] ∧
      ∀ w ∈ cs, ∃ r ∈ policy.rulesForType ev.mapping p.2 kind,
        (verdict ev c now r).outcome = .ok .depends ∧ Puts c (declaredAnywhere s) p.1 r w :=
  h.writes (fun _ hp _ hr => writes_instantiate (derives_objectPath ht hs hp)
    (derives_ruleCondition hpolicy hr)) (legible_start c _)

/-- The grammar derives what a restriction asks for. -/
theorem Restricted.derives (hpolicy : Policy.ofTexts ev.mapping texts = .ok policy)
    (ht : Phrase.ofText source = .ok t)
    (hs : Statement.ofPhrase (some ev.mapping.model) t = .ok s) {found : List Phrase}
    {final : ContextParameters}
    (h : Restricted ev policy kind c now (declaredAnywhere s) (objectPaths ev.mapping s)
      { taken := s.parameters } found final) : ∀ u ∈ found, Derives .primary u := by
  intro u hu
  obtain ⟨p, hp, cs, rfl, hne, hmade⟩ := h.puts hpolicy ht hs u hu
  refine derives_anyOf (fun w hw => ?_) hne
  obtain ⟨r, hr, -, hputs⟩ := hmade w hw
  exact hputs.derives (derives_objectPath ht hs hp) (derives_ruleCondition hpolicy hr)

end Restriction

end RowGuard
