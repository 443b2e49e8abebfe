import RowGuard.Proofs.Extension
import RowGuard.Proofs.Lexing
import RowGuard.Query.Grammar.Statement

/-!
# What the grammar derives

Each category of the grammar derives certain phrases.  A chain of operators
leans to the left, an operand of a looser operator is a phrase of the tighter
category, and what is not of the tighter category stands between brackets.
Spans do not matter here.  Every phrase that is derived is well-formed.
-/

namespace RowGuard

open Query (AccessKind Aggregate ArithmeticOperator Comparison Keyword Label Phrase Token TrimSide)
open Query.Phrase

namespace Query.Grammar

/-- The kinds of phrases between which the grammar tells. -/
inductive Category where
  /-- A name, or a path that starts at one. -/
  | reference
  | primary | signed | product | sum
  /-- A test that `NOT` may stand inside. -/
  | predicate
  | simple | factor | term | condition
  | subselect
  /-- What a select list is made of. -/
  | selected
  | selectClause | join | fromItem | fromClause | whereClause | groupByClause | havingClause
  | orderByItem | orderByClause | assignment

/-- The word can name a variable. -/
def isVariable (w : String) : Bool :=
  isName w && (Keyword.ofWord? w).all fun k => !k.isReserved

def multiplies : ArithmeticOperator → Bool
  | .multiply | .divide => true
  | .add | .subtract => false

/-- The phrases of each category. -/
inductive Derives : Category → Phrase → Prop
  | name {x : String} (s : Source.Span) : isVariable x →
      Derives .reference (.node (.identifier x) [] s)
  | path {x w : String} {ws : List String} {segments : List Phrase} (r s : Source.Span) :
      isVariable x → AreSegments segments (w :: ws) → (∀ v ∈ w :: ws, isName v) →
      Derives .reference (.node .path (.node (.identifier x) [] r :: segments) s)
  | literal {token : Token} {l : Label} (s : Source.Span) : token.Legal →
      literalLabel? token = some l → Derives .primary (.node l [] s)
  | keyword {k : Keyword} {l : Label} (s : Source.Span) : keywordLabel? k = some l →
      Derives .primary (.node l [] s)
  | reference {t : Phrase} : Derives .reference t → Derives .primary t
  | subselect {t : Phrase} : Derives .subselect t → Derives .primary t
  | brackets {t : Phrase} (s : Source.Span) : Derives .condition t →
      Derives .primary (.node .brackets [t] s)
  | call {name : String} {f : Signature} {ts : List Phrase} (s : Source.Span) :
      signature? name = some f → f.admits ts.length → (∀ t ∈ ts, Derives .sum t) →
      Derives .primary (.node f.label ts s)
  | aggregate {t : Phrase} (function : Aggregate) (distinct : Bool) (s : Source.Span) :
      Derives .sum t → Derives .primary (.node (.aggregate function distinct) [t] s)
  | trim {t : Phrase} (side : Option TrimSide) (s : Source.Span) : Derives .sum t →
      Derives .primary (.node (.trim side) [t] s)
  | trimOff {c t : Phrase} (side : Option TrimSide) (s : Source.Span) : Derives .sum c →
      Derives .sum t → Derives .primary (.node (.trim side) [c, t] s)
  | unsigned {t : Phrase} : Derives .primary t → Derives .signed t
  | negative {t : Phrase} (s : Source.Span) : Derives .signed t →
      Derives .signed (.node .negative [t] s)
  | single {t : Phrase} : Derives .signed t → Derives .product t
  | multiply {op : ArithmeticOperator} {l r : Phrase} (s : Source.Span) : multiplies op = true →
      Derives .product l → Derives .signed r →
      Derives .product (.node (.arithmetic op) [l, r] s)
  | summand {t : Phrase} : Derives .product t → Derives .sum t
  | add {op : ArithmeticOperator} {l r : Phrase} (s : Source.Span) : multiplies op = false →
      Derives .sum l → Derives .product r → Derives .sum (.node (.arithmetic op) [l, r] s)
  | between {v l u : Phrase} (s : Source.Span) : Derives .sum v → Derives .sum l →
      Derives .sum u → Derives .predicate (.node .between [v, l, u] s)
  | isIn {v t : Phrase} {ts : List Phrase} (s : Source.Span) : Derives .sum v →
      (∀ u ∈ t :: ts, Derives .sum u) → (ts = [] → t.label ≠ .subselect) →
      Derives .predicate (.node .isIn (v :: t :: ts) s)
  | isInSubselect {v t : Phrase} (s : Source.Span) : Derives .sum v → Derives .subselect t →
      Derives .predicate (.node .isIn [v, t] s)
  | like {v p : Phrase} (s : Source.Span) : Derives .sum v → Derives .sum p →
      Derives .predicate (.node .like [v, p] s)
  | likeEscape {v p e : Phrase} (s : Source.Span) : Derives .sum v → Derives .sum p →
      Derives .primary e → Derives .predicate (.node .like [v, p, e] s)
  | isNull {v : Phrase} (s : Source.Span) : Derives .sum v →
      Derives .predicate (.node .isNull [v] s)
  | isEmpty {v : Phrase} (s : Source.Span) : Derives .sum v →
      Derives .predicate (.node .isEmpty [v] s)
  | memberOf {v c : Phrase} (s : Source.Span) : Derives .sum v → Derives .primary c →
      Derives .predicate (.node .memberOf [v, c] s)
  | operand {t : Phrase} : Derives .sum t → Derives .simple t
  | compare {l r : Phrase} (op : Comparison) (s : Source.Span) : Derives .sum l →
      Derives .sum r → Derives .simple (.node (.compare op) [l, r] s)
  | test {t : Phrase} : Derives .predicate t → Derives .simple t
  | negated {t : Phrase} (s : Source.Span) : Derives .predicate t →
      Derives .simple (.node .not [t] s)
  | exist {t : Phrase} (s : Source.Span) : Derives .subselect t →
      Derives .simple (.node .exist [t] s)
  | simple {t : Phrase} : Derives .simple t → Derives .factor t
  | not {t : Phrase} (s : Source.Span) : Derives .factor t → Derives .factor (.node .not [t] s)
  | factor {t : Phrase} : Derives .factor t → Derives .term t
  | and {t u : Phrase} {ts : List Phrase} (s : Source.Span) :
      (∀ v ∈ t :: u :: ts, Derives .factor v) → Derives .term (.node .and (t :: u :: ts) s)
  | term {t : Phrase} : Derives .term t → Derives .condition t
  | or {t u : Phrase} {ts : List Phrase} (s : Source.Span) :
      (∀ v ∈ t :: u :: ts, Derives .term v) → Derives .condition (.node .or (t :: u :: ts) s)
  | item {t : Phrase} : Derives .sum t → Derives .selected t
  | newObject {w : String} {ws : List String} {t : Phrase} {ts : List Phrase} (s : Source.Span) :
      (∀ v ∈ w :: ws, isName v) → (∀ u ∈ t :: ts, Derives .sum u) →
      Derives .selected (.node (.newObject (Text.Dotted.join (w :: ws))) (t :: ts) s)
  | selectClause {t : Phrase} {ts : List Phrase} (distinct : Bool) (s : Source.Span) :
      (∀ u ∈ t :: ts, Derives .selected u) →
      Derives .selectClause (.node (.selectClause distinct) (t :: ts) s)
  | join {p : Phrase} (outer fetch : Bool) (s : Source.Span) : Derives .reference p →
      Derives .join (.node (.join outer fetch) [p] s)
  | joinNamed {p : Phrase} {a : String} (outer fetch : Bool) (s r : Source.Span) :
      Derives .reference p → isVariable a →
      Derives .join (.node (.join outer fetch) [p, .node (.identifier a) [] r] s)
  | fromItem {e a : String} {js : List Phrase} (s₁ s₂ s : Source.Span) : isName e →
      isVariable a → (∀ j ∈ js, Derives .join j) →
      Derives .fromItem (.node .fromItem
        (.node (.entityName e) [] s₁ :: .node (.identifier a) [] s₂ :: js) s)
  | fromClause {t : Phrase} {ts : List Phrase} (s : Source.Span) :
      (∀ u ∈ t :: ts, Derives .fromItem u) → Derives .fromClause (.node .fromClause (t :: ts) s)
  | whereClause {t : Phrase} (s : Source.Span) : Derives .condition t →
      Derives .whereClause (.node .whereClause [t] s)
  | groupByClause {t : Phrase} {ts : List Phrase} (s : Source.Span) :
      (∀ u ∈ t :: ts, Derives .sum u) →
      Derives .groupByClause (.node .groupByClause (t :: ts) s)
  | havingClause {t : Phrase} (s : Source.Span) : Derives .condition t →
      Derives .havingClause (.node .havingClause [t] s)
  | query {select source : Phrase} {restriction grouping having : Option Phrase}
      (s : Source.Span) : Derives .selectClause select → Derives .fromClause source →
      (∀ t ∈ restriction, Derives .whereClause t) → (∀ t ∈ grouping, Derives .groupByClause t) →
      (∀ t ∈ having, Derives .havingClause t) →
      Derives .subselect (.node .subselect (select :: source ::
        (restriction.toList ++ grouping.toList ++ having.toList)) s)
  | orderByItem {t : Phrase} (descending : Bool) (s : Source.Span) : Derives .sum t →
      Derives .orderByItem (.node (.orderByItem descending) [t] s)
  | orderByClause {t : Phrase} {ts : List Phrase} (s : Source.Span) :
      (∀ u ∈ t :: ts, Derives .orderByItem u) →
      Derives .orderByClause (.node .orderByClause (t :: ts) s)
  | assignment {target value : Phrase} (s : Source.Span) : Derives .reference target →
      Derives .sum value → Derives .assignment (.node .assignment [target, value] s)

/-- The phrases that a whole text is read as. -/
inductive DerivesText : Phrase → Prop
  | selectStatement {select source : Phrase} {restriction grouping having order : Option Phrase}
      (s : Source.Span) : Derives .selectClause select → Derives .fromClause source →
      (∀ t ∈ restriction, Derives .whereClause t) → (∀ t ∈ grouping, Derives .groupByClause t) →
      (∀ t ∈ having, Derives .havingClause t) → (∀ t ∈ order, Derives .orderByClause t) →
      DerivesText (.node .selectStatement (select :: source ::
        (restriction.toList ++ grouping.toList ++ having.toList ++ order.toList)) s)
  | updateStatement {e a : String} {t : Phrase} {ts : List Phrase} {restriction : Option Phrase}
      (s₁ s₂ s₃ s₄ s : Source.Span) : isName e → isVariable a →
      (∀ u ∈ t :: ts, Derives .assignment u) → (∀ t ∈ restriction, Derives .whereClause t) →
      DerivesText (.node .updateStatement
        (.node .updateClause [.node (.entityName e) [] s₁, .node (.identifier a) [] s₂] s₃
          :: .node .setClause (t :: ts) s₄ :: restriction.toList) s)
  | deleteStatement {e a : String} {restriction : Option Phrase} (s₁ s₂ s₃ s : Source.Span) :
      isName e → isVariable a → (∀ t ∈ restriction, Derives .whereClause t) →
      DerivesText (.node .deleteStatement
        (.node .deleteClause [.node (.entityName e) [] s₁, .node (.identifier a) [] s₂] s₃
          :: restriction.toList) s)
  | accessRule {kinds : List AccessKind} {e a : String} {restriction : Option Phrase}
      (s₁ s₂ s : Source.Span) : kinds.Nodup → isName e → isVariable a →
      (∀ t ∈ restriction, Derives .whereClause t) →
      DerivesText (.node (.accessRule kinds)
        (.node (.entityName e) [] s₁ :: .node (.identifier a) [] s₂ :: restriction.toList) s)

/-! ## Well-formed phrases -/

/-- A range whose joins are joins. -/
def IsItem (r : Phrase) : Prop := r.IsRange ∧ ∀ j ∈ r.children.drop 2, j.IsJoin

/-- A clause with some label whose children have a property. -/
def IsClause (l : Label) (P : Phrase → Prop) (t : Phrase) : Prop :=
  ∃ ts s, t = .node l ts s ∧ ∀ u ∈ ts, P u

/-- What is known of the shape of a phrase from its category. -/
def Category.Shapes : Category → Phrase → Prop
  | .reference, t => ∃ x ws, t.IsReference x ws
  | .selectClause, t => ∃ distinct, IsClause (.selectClause distinct) WellFormed t
  | .join, t => t.IsJoin
  | .fromItem, t => IsItem t
  | .fromClause, t => IsClause .fromClause IsItem t
  | .whereClause, t => t.WellFormed ∧ t.label = .whereClause
  | .groupByClause, t => t.WellFormed ∧ t.label = .groupByClause
  | .havingClause, t => t.WellFormed ∧ t.label = .havingClause
  | .orderByClause, t => t.WellFormed ∧ t.label = .orderByClause
  | _, t => t.WellFormed

theorem ne_point_of_isWordPart {c : Char} (h : Scan.isWordPart c) : c ≠ '.' := by
  rintro rfl
  exact absurd h (by decide)

theorem isWord_of_isName {w : String} (h : isName w) : IsWord w := by
  rw [isName, Bool.and_eq_true] at h
  refine ⟨?_, fun hpoint => ne_point_of_isWordPart (List.all_eq_true.mp h.2 _ hpoint) rfl⟩
  rintro rfl
  exact Bool.false_ne_true h.1

theorem isName_of_isVariable {w : String} (h : isVariable w) : isName w :=
  (Bool.and_eq_true _ _ ▸ h).1

theorem isWord_of_isVariable {w : String} (h : isVariable w) : IsWord w :=
  isWord_of_isName (isName_of_isVariable h)

theorem isCompound_of_signature? {name : String} {f : Signature}
    (h : signature? name = some f) : f.label.isCompound := by
  unfold signature? at h
  split at h <;> cases h <;> rfl

theorem isLeaf_of_keywordLabel? {k : Keyword} {l : Label} (h : keywordLabel? k = some l) :
    l.isLeaf := by
  cases k <;> first
    | exact absurd h.symm (Option.some_ne_none l)
    | cases h; rfl

theorem isLeaf_of_literalLabel? {token : Token} {l : Label}
    (h : literalLabel? token = some l) : l.isLeaf := by
  cases token <;> first
    | exact absurd h.symm (Option.some_ne_none l)
    | cases h; rfl

/-- Only a subselect that stands alone has the label of one. -/
theorem Derives.subselect_of_sum {t : Phrase} (h : Derives .sum t) (hlabel : t.label = .subselect) :
    Derives .subselect t := by
  cases h with
  | add => cases hlabel
  | summand h => cases h with
    | multiply => cases hlabel
    | single h => cases h with
      | negative => cases hlabel
      | unsigned h => cases h with
        | subselect h => exact h
        | literal s _ hl =>
            obtain rfl : _ = Label.subselect := hlabel
            cases isLeaf_of_literalLabel? hl
        | keyword s hl =>
            obtain rfl : _ = Label.subselect := hlabel
            cases isLeaf_of_keywordLabel? hl
        | call s hf =>
            have hcompound := isCompound_of_signature? hf
            rw [Phrase.label] at hlabel
            rw [hlabel] at hcompound
            cases hcompound
        | reference h => cases h <;> cases hlabel
        | brackets | aggregate | trim | trimOff => cases hlabel

theorem isJoin_of_isItem {items : List Phrase} (hitems : ∀ r ∈ items, IsItem r) :
    ∀ j ∈ joinsOf items, j.IsJoin := by
  intro j hj
  obtain ⟨r, hr, hj⟩ := List.mem_flatMap.mp hj
  exact (hitems r hr).2 j hj

theorem wellFormed_of_all {l : Label} (hl : l.isCompound) {ts : List Phrase} (s : Source.Span)
    (h : ∀ t ∈ ts, t.WellFormed) : (Phrase.node l ts s).WellFormed :=
  .compound s hl h

/-- The clauses of a subselect make a well-formed phrase. -/
theorem wellFormed_subselect {select source : Phrase} {rest : List Phrase} (s : Source.Span)
    (hselect : Category.selectClause.Shapes select) (hsource : Category.fromClause.Shapes source)
    (hrest : ∀ t ∈ rest, t.WellFormed ∧ t.label.isFinalClause) :
    (Phrase.node .subselect (select :: source :: rest) s).WellFormed := by
  obtain ⟨distinct, cs, s₁, rfl, hcs⟩ := hselect
  obtain ⟨items, s₂, rfl, hitems⟩ := hsource
  have hmono : ∀ {t : Phrase}, t.WellFormed →
      Within (fun n => n ∈ itemAliases items ∨ True) t :=
    fun ht => ht.mono fun _ _ => Or.inr trivial
  exact .subselect distinct s₁ s₂ s (fun r hr => (hitems r hr).1)
    (joinsWithin_of_isJoin (isJoin_of_isItem hitems) _) (fun t ht => hmono (hcs t ht))
    (fun t ht => hmono (hrest t ht).1) fun t ht => (hrest t ht).2

/-- The optional clauses behind the from clause. -/
theorem isFinalClause_of_shapes {restriction grouping having : Option Phrase}
    (hrestriction : ∀ t ∈ restriction, Category.whereClause.Shapes t)
    (hgrouping : ∀ t ∈ grouping, Category.groupByClause.Shapes t)
    (hhaving : ∀ t ∈ having, Category.havingClause.Shapes t) :
    ∀ t ∈ restriction.toList ++ grouping.toList ++ having.toList,
      t.WellFormed ∧ t.label.isFinalClause := by
  intro t ht
  simp only [List.mem_append, Option.mem_toList] at ht
  rcases ht with (ht | ht) | ht
  · exact ⟨(hrestriction t ht).1, by rw [(hrestriction t ht).2]; rfl⟩
  · exact ⟨(hgrouping t ht).1, by rw [(hgrouping t ht).2]; rfl⟩
  · exact ⟨(hhaving t ht).1, by rw [(hhaving t ht).2]; rfl⟩

/-- A derived phrase is well-formed. -/
theorem Derives.shapes {c : Category} {t : Phrase} (h : Derives c t) : c.Shapes t := by
  induction h with
  | name s hx => exact ⟨_, [], .name s (isWord_of_isVariable hx)⟩
  | path r s hx hsegments hnames =>
      exact ⟨_, _, .path r s (isWord_of_isVariable hx) hsegments⟩
  | literal s _ hl => exact .leaf s (isLeaf_of_literalLabel? hl)
  | keyword s hl => exact .leaf s (isLeaf_of_keywordLabel? hl)
  | reference _ ih =>
      obtain ⟨x, ws, hx⟩ := ih
      exact .reference hx trivial
  | call s hf _ _ ih => exact wellFormed_of_all (isCompound_of_signature? hf) s ih
  | subselect _ ih | unsigned _ ih | single _ ih | summand _ ih | operand _ ih | test _ ih
  | simple _ ih | factor _ ih | term _ ih | item _ ih => exact ih
  | brackets s _ ih | aggregate _ _ s _ ih | trim _ s _ ih | negative s _ ih | isNull s _ ih
  | isEmpty s _ ih | negated s _ ih | exist s _ ih | not s _ ih | orderByItem _ s _ ih =>
      exact wellFormed_of_all rfl s (List.forall_mem_singleton.mpr ih)
  | trimOff _ s _ _ ih₁ ih₂ | multiply s _ _ _ ih₁ ih₂ | add s _ _ _ ih₁ ih₂
  | isInSubselect s _ _ ih₁ ih₂ | like s _ _ ih₁ ih₂ | memberOf s _ _ ih₁ ih₂
  | compare _ s _ _ ih₁ ih₂ =>
      exact wellFormed_of_all rfl s (by simpa using ⟨ih₁, ih₂⟩)
  | between s _ _ _ ih₁ ih₂ ih₃ | likeEscape s _ _ _ ih₁ ih₂ ih₃ =>
      exact wellFormed_of_all rfl s (by simpa using ⟨ih₁, ih₂, ih₃⟩)
  | isIn s _ _ _ ihv ih => exact wellFormed_of_all rfl s (List.forall_mem_cons.mpr ⟨ihv, ih⟩)
  | and s _ ih | or s _ ih | newObject s _ _ ih => exact wellFormed_of_all rfl s ih
  | assignment s _ _ ihtarget ihvalue =>
      obtain ⟨x, ws, hx⟩ := ihtarget
      have htarget := Within.reference (P := fun _ => True) hx trivial
      exact wellFormed_of_all rfl s (by simpa using ⟨htarget, ihvalue⟩)
  | selectClause distinct s _ ih => exact ⟨distinct, _, s, rfl, ih⟩
  | join outer fetch s _ ih =>
      obtain ⟨x, ws, hx⟩ := ih
      exact .bare outer fetch s hx
  | joinNamed outer fetch s r _ ha ih =>
      obtain ⟨x, ws, hx⟩ := ih
      exact .named outer fetch s r hx (isWord_of_isVariable ha)
  | fromItem s₁ s₂ s _ ha _ ih => exact ⟨.intro _ _ _ s₁ s₂ s (isWord_of_isVariable ha), ih⟩
  | fromClause s _ ih => exact ⟨_, s, rfl, ih⟩
  | whereClause s _ ih | havingClause s _ ih =>
      exact ⟨wellFormed_of_all rfl s (List.forall_mem_singleton.mpr ih), rfl⟩
  | groupByClause s _ ih | orderByClause s _ ih => exact ⟨wellFormed_of_all rfl s ih, rfl⟩
  | query s _ _ _ _ _ ihselect ihsource ihrestriction ihgrouping ihhaving =>
      exact wellFormed_subselect s ihselect ihsource
        (isFinalClause_of_shapes ihrestriction ihgrouping ihhaving)

end Query.Grammar

end RowGuard
