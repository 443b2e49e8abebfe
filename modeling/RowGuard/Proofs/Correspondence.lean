import RowGuard.Proofs.References

/-!
# Corresponding phrases

Two phrases correspond when the second says with other names what the first
says: aliases that subselects declare may be renamed, a name that is free in
the first may stand for a path in the second, and phrases without operands may
be exchanged for others that mean the same.  What names, leaves and lists of
roles may stand for is given by a link.

The declared aliases are kept as pairs, the nearest first.  A name refers to
the same declaration in both phrases when the first pair that either name
occurs in is made of both.
-/

namespace RowGuard

open Query (Label Phrase)
open Query.Phrase

/-- What may stand for what outside of declared aliases. -/
structure Link where
  /-- A free name and the root and words of the reference that stands for it. -/
  free : String → String → List String → Prop
  leaf : Label → Label → Prop
  /-- Parameters that stand for the roles. -/
  roles : List String → Prop
  /-- Whether subselects are the same on both sides. -/
  exact : Prop

abbrev Pairs := List (String × String)

/-- Whether a pair has one of two names on its side. -/
def touches (n x : String) (p : String × String) : Bool := p.1 == n || p.2 == x

/-- A name refers to what a reference refers to. -/
inductive Refers (k : Link) (ρ : Pairs) (n x : String) : List String → Prop
  | bound : ρ.find? (touches n x) = some (n, x) → Refers k ρ n x []
  | free {ws : List String} : ρ.find? (touches n x) = none → k.free n x ws →
      Refers k ρ n x ws

namespace Query.Label

/-- Phrases without operands that have a value of their own. -/
def isLeaf : Label → Bool
  | .clock _ | .context _ | .namedParameter _ | .positionalParameter _ | .stringLiteral _
  | .integerLiteral _ | .decimalLiteral _ | .booleanLiteral _ | .null => true
  | _ => false

/-- Phrases that are made of their children and of nothing else. -/
def isCompound (l : Label) : Bool :=
  !l.isTerminal && match l with
    | .subselect | .path | .fromClause | .fromItem | .join _ _ => false
    | _ => true

end Query.Label

/-- The clauses of a subselect behind its from clause. -/
def Query.Label.isFinalClause : Label → Bool
  | .whereClause | .groupByClause | .havingClause => true
  | _ => false

/-- Whether declaring a pair repeats an alias on both sides or on none. -/
def RepeatsAlike (D : Pairs) (a b : String) : Prop :=
  a ∈ D.map Prod.fst ↔ b ∈ D.map Prod.snd

/-- Joins that correspond, with the pairs declared before and after them.  A join
path is read in the scope of what is declared before it and followed in the
scope of all, `P` being the pairs of the whole from clause. -/
inductive JoinsCorrespond (k : Link) (ρ P : Pairs) :
    Pairs → List Phrase → List Phrase → Pairs → Prop
  | nil (D : Pairs) : JoinsCorrespond k ρ P D [] [] D
  | bare {D E : Pairs} {p q : Phrase} {js ks : List Phrase} {n x : String}
      {ws vs : List String} (outer fetch : Bool) (s s' : Source.Span) :
      p.IsReference n ws → q.IsReference x (vs ++ ws) → Refers k (D ++ ρ) n x vs →
      JoinsCorrespond k ρ P D js ks E →
        JoinsCorrespond k ρ P D (.node (.join outer fetch) [p] s :: js)
          (.node (.join outer fetch) [q] s' :: ks) E
  | named {D E : Pairs} {p q : Phrase} {js ks : List Phrase} {n x a b : String}
      {ws vs : List String} (outer fetch : Bool) (s s' r r' : Source.Span) :
      p.IsReference n ws → q.IsReference x (vs ++ ws) → Refers k (D ++ ρ) n x vs →
      Refers k (P ++ ρ) n x vs → IsWord a → IsWord b → RepeatsAlike D a b →
      JoinsCorrespond k ρ P ((a, b) :: D) js ks E →
        JoinsCorrespond k ρ P D
          (.node (.join outer fetch) [p, .node (.identifier a) [] r] s :: js)
          (.node (.join outer fetch) [q, .node (.identifier b) [] r'] s' :: ks) E

/-- Ranges over the same types, with the pairs declared before and after them.
Their joins are left open here. -/
inductive RangesCorrespond : Pairs → List Phrase → List Phrase → Pairs → Prop
  | nil (D : Pairs) : RangesCorrespond D [] [] D
  | cons {D E : Pairs} {items items' js ks : List Phrase} {a b : String} (entity : String)
      (s₁ s₂ s₃ s₁' s₂' s₃' : Source.Span) :
      IsWord a → IsWord b → RepeatsAlike D a b →
      RangesCorrespond ((a, b) :: D) items items' E →
        RangesCorrespond D
          (.node .fromItem (.node (.entityName entity) [] s₁
            :: .node (.identifier a) [] s₂ :: js) s₃ :: items)
          (.node .fromItem (.node (.entityName entity) [] s₁'
            :: .node (.identifier b) [] s₂' :: ks) s₃' :: items') E

/-- The joins of some from items, one after the other. -/
def joinsOf (items : List Phrase) : List Phrase := items.flatMap fun r => r.children.drop 2

mutual

/-- The second phrase says what the first one says, `ρ` pairing the aliases that
are declared around them. -/
inductive Corresponds (k : Link) : Nat → Nat → Pairs → Phrase → Phrase → Prop
  | reference {i j : Nat} {ρ : Pairs} {t u : Phrase} {n x : String} {ws vs : List String} :
      t.IsReference n ws → u.IsReference x (vs ++ ws) → Refers k ρ n x vs →
        Corresponds k i j ρ t u
  | leaf {i j : Nat} {ρ : Pairs} {l m : Label} (s s' : Source.Span) :
      l.isLeaf → m.isLeaf → k.leaf l m → Corresponds k i j ρ (.node l [] s) (.node m [] s')
  | roles {i j : Nat} {ρ : Pairs} {t u : Phrase} {names : List String} (s s' r : Source.Span) :
      Corresponds k i j ρ t u → k.roles names → names ≠ [] →
        Corresponds k i j ρ (.node .isIn [t, .node (.context .roles) [] r] s)
          (.node .isIn (u :: names.map namedParameter) s')
  | subselect {i j : Nat} {ρ D P : Pairs} {cs ds items items' rest rest' : List Phrase} (distinct : Bool)
      (s₁ s₂ s₃ s₁' s₂' s₃' : Source.Span) :
      RangesCorrespond [] items items' D →
      JoinsCorrespond k ρ P D (joinsOf items) (joinsOf items') P →
      AllCorrespond k i j (P ++ ρ) cs ds → AllCorrespond k i j (P ++ ρ) rest rest' →
      (∀ t ∈ rest, t.label.isFinalClause) →
      (k.exact → Phrase.node .subselect (.node (.selectClause distinct) cs s₁
          :: .node .fromClause items s₂ :: rest) s₃ =
        .node .subselect (.node (.selectClause distinct) ds s₁'
          :: .node .fromClause items' s₂' :: rest') s₃') →
        Corresponds k (i + 1) (j + 1) ρ
          (.node .subselect (.node (.selectClause distinct) cs s₁
            :: .node .fromClause items s₂ :: rest) s₃)
          (.node .subselect (.node (.selectClause distinct) ds s₁'
            :: .node .fromClause items' s₂' :: rest') s₃')
  | compound {i j : Nat} {ρ : Pairs} {l : Label} {ts us : List Phrase} (s s' : Source.Span) :
      l.isCompound → AllCorrespond k i j ρ ts us →
        Corresponds k i j ρ (.node l ts s) (.node l us s')

inductive AllCorrespond (k : Link) : Nat → Nat → Pairs → List Phrase → List Phrase → Prop
  | nil {i j : Nat} {ρ : Pairs} : AllCorrespond k i j ρ [] []
  | cons {i j : Nat} {ρ : Pairs} {t u : Phrase} {ts us : List Phrase} :
      Corresponds k i j ρ t u → AllCorrespond k i j ρ ts us →
        AllCorrespond k i j ρ (t :: ts) (u :: us)

end

/-! ## Names -/

namespace Refers

variable {k : Link} {ρ : Pairs} {n m x y : String} {ws vs : List String}

theorem not_touched (a b : String) (ha : touches n x (a, b) = false) :
    a ≠ n ∧ b ≠ x := by
  simpa [touches] using ha

/-- In front of other pairs, a pair says what its two names refer to. -/
theorem cons_iff {a b : String} : Refers k ((a, b) :: ρ) n x ws ↔
    (a = n ∧ b = x ∧ ws = []) ∨ (a ≠ n ∧ b ≠ x ∧ Refers k ρ n x ws) := by
  by_cases ha : touches n x (a, b) = true
  · constructor
    · intro h
      rcases h with h | ⟨h, -⟩
      · rw [List.find?_cons_of_pos ha] at h
        simp only [Option.some.injEq, Prod.mk.injEq] at h
        exact Or.inl ⟨h.1, h.2, rfl⟩
      · rw [List.find?_cons_of_pos ha] at h
        cases h
    · rintro (⟨rfl, rfl, rfl⟩ | ⟨hne, hne', -⟩)
      · exact Refers.bound (List.find?_cons_of_pos ha)
      · simp [touches, hne, hne'] at ha
  · have hne := not_touched a b (by simpa using ha)
    have hfind : ((a, b) :: ρ).find? (touches n x) = ρ.find? (touches n x) :=
      List.find?_cons_of_neg ha
    constructor
    · intro h
      refine Or.inr ⟨hne.1, hne.2, ?_⟩
      rcases h with h | ⟨h, hfree⟩
      · exact Refers.bound (hfind ▸ h)
      · exact Refers.free (hfind ▸ h) hfree
    · rintro (⟨rfl, -, -⟩ | ⟨-, -, h⟩)
      · exact absurd rfl hne.1
      · rcases h with h | ⟨h, hfree⟩
        · exact Refers.bound (hfind.trans h)
        · exact Refers.free (hfind.trans h) hfree

theorem nil_iff : Refers k [] n x ws ↔ k.free n x ws := by
  constructor
  · rintro (h | ⟨-, h⟩)
    · cases h
    · exact h
  · exact Refers.free rfl

/-- Behind some pairs, a name is touched by none of them or made of one. -/
theorem append_cases {P : Pairs} (h : Refers k (P ++ ρ) n x ws) :
    ((n, x) ∈ P ∧ ws = []) ∨
      ((∀ p ∈ P, p.1 ≠ n ∧ p.2 ≠ x) ∧ Refers k ρ n x ws) := by
  induction P with
  | nil => exact Or.inr ⟨by simp, h⟩
  | cons p P ih =>
      obtain ⟨a, b⟩ := p
      rcases cons_iff.mp h with ⟨rfl, rfl, rfl⟩ | ⟨hne, hne', h⟩
      · exact Or.inl ⟨by simp, rfl⟩
      · rcases ih h with ⟨hmem, rfl⟩ | ⟨hfresh, h⟩
        · exact Or.inl ⟨List.mem_cons_of_mem _ hmem, rfl⟩
        · refine Or.inr ⟨fun q hq => ?_, h⟩
          rcases List.mem_cons.mp hq with rfl | hq
          · exact ⟨hne, hne'⟩
          · exact hfresh q hq

end Refers

/-! ## Declared aliases -/

theorem Query.Phrase.declaredAliases_subselect (distinct : Bool)
    (cs items rest : List Phrase) (s₁ s₂ s₃ : Source.Span) :
    declaredAliases (.node .subselect
      (.node (.selectClause distinct) cs s₁ :: .node .fromClause items s₂ :: rest) s₃) =
    items.filterMap declaredAlias? ++ (joinsOf items).filterMap declaredAlias? := by
  simp [declaredAliases, findChild?, Phrase.children, Phrase.label, joinsOf,
    List.filterMap_flatMap]

/-- The pairs of a from clause are made of what the ranges declare. -/
theorem RangesCorrespond.map_pairs {D E : Pairs} {items items' : List Phrase}
    (h : RangesCorrespond D items items' E) :
    E.map Prod.fst = (items.filterMap declaredAlias?).reverse ++ D.map Prod.fst ∧
      E.map Prod.snd = (items'.filterMap declaredAlias?).reverse ++ D.map Prod.snd := by
  induction h with
  | nil => simp
  | cons entity s₁ s₂ s₃ s₁' s₂' s₃' _ _ _ _ ih =>
      rw [ih.1, ih.2]
      simp [declaredAlias?, child?, Phrase.children, identifier?, Phrase.label]

theorem JoinsCorrespond.map_pairs {k : Link} {ρ P D E : Pairs} {js ks : List Phrase}
    (h : JoinsCorrespond k ρ P D js ks E) :
    E.map Prod.fst = (js.filterMap declaredAlias?).reverse ++ D.map Prod.fst ∧
      E.map Prod.snd = (ks.filterMap declaredAlias?).reverse ++ D.map Prod.snd := by
  induction h with
  | nil => simp
  | bare _ _ _ _ _ _ _ _ ih =>
      rw [ih.1, ih.2]
      simp [declaredAlias?, child?, Phrase.children]
  | named _ _ _ _ _ _ _ _ _ _ _ _ _ _ ih =>
      rw [ih.1, ih.2]
      simp [declaredAlias?, child?, Phrase.children, identifier?, Phrase.label]

/-- The pairs of a subselect are made of the aliases that the two phrases declare. -/
theorem pairs_eq_declaredAliases {k : Link} {ρ D P : Pairs} {items items' : List Phrase}
    (hranges : RangesCorrespond [] items items' D)
    (hjoins : JoinsCorrespond k ρ P D (joinsOf items) (joinsOf items') P) :
    P.map Prod.fst = (items.filterMap declaredAlias? ++
        (joinsOf items).filterMap declaredAlias?).reverse ∧
      P.map Prod.snd = (items'.filterMap declaredAlias? ++
        (joinsOf items').filterMap declaredAlias?).reverse := by
  have hleft := hjoins.map_pairs.1
  have hright := hjoins.map_pairs.2
  rw [hranges.map_pairs.1, List.map_nil, List.append_nil] at hleft
  rw [hranges.map_pairs.2, List.map_nil, List.append_nil] at hright
  rw [hleft, hright, List.reverse_append, List.reverse_append]
  exact ⟨rfl, rfl⟩

/-! ## Labels -/

theorem Query.Phrase.IsReference.label_cases {t : Phrase} {x : String} {ws : List String}
    (h : t.IsReference x ws) : t.label = .identifier x ∨ t.label = .path := by
  cases h
  · exact Or.inl rfl
  · exact Or.inr rfl

theorem isAtomic_of_isLeaf {l : Label} (h : l.isLeaf) : l.isAtomic := by
  cases l <;> first | rfl | cases h

namespace Corresponds

variable {k : Link} {i j : Nat} {ρ : Pairs} {t u : Phrase}

/-- Corresponding phrases have one label, unless both are references or leaves. -/
theorem label_cases (h : Corresponds k i j ρ t u) :
    t.label = u.label ∨ (t.label.isAtomic ∧ u.label.isAtomic ∧
      ∀ l, (l = t.label ∨ l = u.label) → l.isLeaf ∨ l = .path ∨ ∃ x, l = .identifier x) := by
  cases h with
  | reference ht hu _ =>
      refine Or.inr ?_
      rcases ht.label_cases with h | h <;> rcases hu.label_cases with h' | h' <;>
        simp [h, h', Label.isAtomic, Label.isTerminal]
  | @leaf _ _ _ l m _ _ hl hm _ =>
      refine Or.inr ⟨isAtomic_of_isLeaf hl, isAtomic_of_isLeaf hm, ?_⟩
      rintro l (rfl | rfl)
      · exact Or.inl hl
      · exact Or.inl hm
  | roles => exact Or.inl rfl
  | subselect => exact Or.inl rfl
  | compound => exact Or.inl rfl

/-- A label that is neither that of a reference nor that of a leaf is on both
sides or on none. -/
theorem label_eq_iff (h : Corresponds k i j ρ t u) {l : Label} (hleaf : l.isLeaf = false)
    (hpath : l ≠ .path) (hname : ∀ x, l ≠ .identifier x) : t.label = l ↔ u.label = l := by
  rcases h.label_cases with heq | ⟨-, -, hall⟩
  · rw [heq]
  · have hnot : ∀ m, (m = t.label ∨ m = u.label) → m ≠ l := by
      rintro m hm rfl
      rcases hall m hm with h | h | ⟨x, h⟩
      · simp [hleaf] at h
      · exact hpath h
      · exact hname x h
    exact ⟨fun ht => absurd ht (hnot _ (Or.inl rfl)), fun hu => absurd hu (hnot _ (Or.inr rfl))⟩

theorem isAtomic_eq (h : Corresponds k i j ρ t u) : t.label.isAtomic = u.label.isAtomic := by
  rcases h.label_cases with heq | ⟨ht, hu, -⟩
  · rw [heq]
  · rw [ht, hu]

/-- Phrases with a label of their own correspond child by child. -/
theorem children (h : Corresponds k i j ρ t u) (hcompound : t.label.isCompound)
    (hroles : t.label ≠ .isIn) : t.label = u.label ∧ AllCorrespond k i j ρ t.children u.children := by
  cases h with
  | reference ht hu _ =>
      rcases ht.label_cases with h | h <;> simp [h, Label.isCompound, Label.isTerminal]
        at hcompound
  | @leaf _ _ _ l _ _ _ hl _ _ => cases l <;> simp_all [label, Label.isCompound, Label.isLeaf,
      Label.isTerminal]
  | roles => exact absurd rfl hroles
  | subselect => simp [label, Label.isCompound, Label.isTerminal] at hcompound
  | compound _ _ _ hall => exact ⟨rfl, hall⟩

end Corresponds

namespace AllCorrespond

variable {k : Link} {i j : Nat} {ρ : Pairs} {ts us ts' us' : List Phrase}

theorem append (h : AllCorrespond k i j ρ ts us) (h' : AllCorrespond k i j ρ ts' us') :
    AllCorrespond k i j ρ (ts ++ ts') (us ++ us') := by
  induction ts generalizing us with
  | nil => cases h; exact h'
  | cons t ts ih =>
      cases h with
      | cons hfirst hrest => exact AllCorrespond.cons hfirst (ih hrest)

theorem length_eq (h : AllCorrespond k i j ρ ts us) : ts.length = us.length := by
  induction ts generalizing us with
  | nil => cases h; rfl
  | cons t ts ih =>
      cases h with
      | cons hfirst hrest => simp [ih hrest]

theorem singleton {t u : Phrase} (h : Corresponds k i j ρ t u) : AllCorrespond k i j ρ [t] [u] :=
  AllCorrespond.cons h AllCorrespond.nil

end AllCorrespond

/-! ## Normal forms -/

namespace AllCorrespond

variable {k : Link} {i j : Nat} {ρ : Pairs} {ts us : List Phrase}

theorem flatMap_splice {l : Label} (hcompound : l.isCompound) (hroles : l ≠ .isIn)
    (hleaf : l.isLeaf = false) (hpath : l ≠ .path) (hname : ∀ x, l ≠ .identifier x)
    (h : AllCorrespond k i j ρ ts us) :
    AllCorrespond k i j ρ (ts.flatMap (Query.NormalForm.splice l))
      (us.flatMap (Query.NormalForm.splice l)) := by
  induction ts generalizing us with
  | nil => cases h; exact AllCorrespond.nil
  | cons t ts ih =>
      cases h with
      | @cons _ _ _ _ u _ us hfirst hrest =>
          rw [List.flatMap_cons, List.flatMap_cons]
          refine AllCorrespond.append ?_ (ih hrest)
          have hlabel := hfirst.label_eq_iff hleaf hpath hname
          unfold Query.NormalForm.splice
          by_cases ht : t.label = l
          · rw [if_pos ht, if_pos (hlabel.mp ht)]
            exact (hfirst.children (ht ▸ hcompound) (ht ▸ hroles)).2
          · rw [if_neg ht, if_neg fun hu => ht (hlabel.mpr hu)]
            exact AllCorrespond.singleton hfirst

/-- Closing nodes over corresponding children keeps the correspondence. -/
theorem close {l : Label} (s s' : Source.Span) (hcompound : l.isCompound)
    (h : AllCorrespond k i j ρ ts us) :
    Corresponds k i j ρ (Query.NormalForm.close l ts s) (Query.NormalForm.close l us s') := by
  by_cases hand : l = .and
  · subst hand
    exact Corresponds.compound s s' hcompound (h.flatMap_splice (by decide) (by decide)
      (by decide) (by decide) fun x hx => by cases hx)
  by_cases hor : l = .or
  · subst hor
    exact Corresponds.compound s s' hcompound (h.flatMap_splice (by decide) (by decide)
      (by decide) (by decide) fun x hx => by cases hx)
  by_cases hbrackets : l = .brackets
  · subst hbrackets
    cases h with
    | nil => exact Corresponds.compound s s' hcompound AllCorrespond.nil
    | @cons _ _ _ t u ts us hfirst hrest =>
        cases hrest with
        | nil =>
            simp only [Query.NormalForm.close]
            rw [hfirst.isAtomic_eq]
            by_cases hatomic : u.label.isAtomic
            · rw [if_pos hatomic, if_pos hatomic]
              exact hfirst
            · rw [if_neg hatomic, if_neg hatomic]
              exact Corresponds.compound s s' hcompound (AllCorrespond.singleton hfirst)
        | cons hsecond hrest =>
            exact Corresponds.compound s s' hcompound
              (AllCorrespond.cons hfirst (AllCorrespond.cons hsecond hrest))
  have hplain : ∀ (cs : List Phrase) (s : Source.Span),
      Query.NormalForm.close l cs s = .node l cs s := by
    intro cs s
    cases l <;> first | rfl | contradiction
  rw [hplain, hplain]
  exact Corresponds.compound s s' hcompound h

end AllCorrespond

theorem normalize_leaf (l : Label) (s : Source.Span) :
    (Phrase.node l [] s).normalize = .node l [] s := by
  cases l <;> rfl

theorem normalizeAll_eq_self {ts : List Phrase} (h : ∀ t ∈ ts, t.normalize = t) :
    normalizeAll ts = ts := by
  induction ts with
  | nil => rfl
  | cons t ts ih =>
      rw [normalizeAll, h t (by simp), ih fun u hu => h u (List.mem_cons_of_mem t hu)]

theorem JoinsCorrespond.normalize_eq {k : Link} {ρ P D E : Pairs} {js ks : List Phrase}
    (h : JoinsCorrespond k ρ P D js ks E) :
    (∀ j ∈ js, j.normalize = j) ∧ ∀ j ∈ ks, j.normalize = j := by
  induction h with
  | nil => simp
  | bare outer fetch s s' hp hq _ _ ih =>
      constructor
      · intro j hj
        rcases List.mem_cons.mp hj with rfl | hj
        · simp [Phrase.normalize, normalizeAll, Query.NormalForm.close, hp.normalize_eq]
        · exact ih.1 j hj
      · intro j hj
        rcases List.mem_cons.mp hj with rfl | hj
        · simp [Phrase.normalize, normalizeAll, Query.NormalForm.close, hq.normalize_eq]
        · exact ih.2 j hj
  | named outer fetch s s' r r' hp hq _ _ _ _ _ _ ih =>
      constructor
      · intro j hj
        rcases List.mem_cons.mp hj with rfl | hj
        · simp [Phrase.normalize, normalizeAll, Query.NormalForm.close, hp.normalize_eq]
        · exact ih.1 j hj
      · intro j hj
        rcases List.mem_cons.mp hj with rfl | hj
        · simp [Phrase.normalize, normalizeAll, Query.NormalForm.close, hq.normalize_eq]
        · exact ih.2 j hj

theorem RangesCorrespond.normalizeAll_eq {D E : Pairs} {items items' : List Phrase}
    (h : RangesCorrespond D items items' E)
    (hjoins : ∀ j ∈ joinsOf items, j.normalize = j)
    (hjoins' : ∀ j ∈ joinsOf items', j.normalize = j) :
    normalizeAll items = items ∧ normalizeAll items' = items' := by
  induction h with
  | nil => exact ⟨rfl, rfl⟩
  | @cons D E items items' js ks a b entity s₁ s₂ s₃ s₁' s₂' s₃' _ _ _ _ ih =>
      simp only [joinsOf, List.flatMap_cons, List.mem_append] at hjoins hjoins'
      obtain ⟨hitems, hitems'⟩ := ih (fun j hj => hjoins j (Or.inr hj))
        fun j hj => hjoins' j (Or.inr hj)
      have hjs : normalizeAll js = js :=
        normalizeAll_eq_self fun j hj => hjoins j (Or.inl (by simpa [Phrase.children] using hj))
      have hks : normalizeAll ks = ks :=
        normalizeAll_eq_self fun j hj => hjoins' j (Or.inl (by simpa [Phrase.children] using hj))
      constructor
      · simp [normalizeAll, Phrase.normalize, Query.NormalForm.close, hjs, hitems]
      · simp [normalizeAll, Phrase.normalize, Query.NormalForm.close, hks, hitems']

theorem normalizeAll_isFinalClause {ts : List Phrase} (h : ∀ t ∈ ts, t.label.isFinalClause) :
    ∀ t ∈ normalizeAll ts, t.label.isFinalClause := by
  induction ts with
  | nil => simp [normalizeAll]
  | cons t ts ih =>
      obtain ⟨l, cs, s⟩ := t
      have hl : l.isFinalClause := h (.node l cs s) (by simp)
      intro u hu
      rcases List.mem_cons.mp hu with rfl | hu
      · cases l <;> first | exact hl | cases hl
      · exact ih (fun v hv => h v (List.mem_cons_of_mem _ hv)) u hu

theorem normalizeAll_names (names : List String) :
    normalizeAll (names.map namedParameter) = names.map namedParameter := by
  refine normalizeAll_eq_self fun t ht => ?_
  obtain ⟨name, -, rfl⟩ := List.mem_map.mp ht
  rfl

mutual

/-- Normal forms of corresponding phrases correspond. -/
theorem Corresponds.normalize {k : Link} {i j : Nat} {ρ : Pairs} {t u : Phrase} :
    Corresponds k i j ρ t u → Corresponds k i j ρ t.normalize u.normalize
  | .reference ht hu href => by
      rw [ht.normalize_eq, hu.normalize_eq]
      exact .reference ht hu href
  | .leaf s s' hl hm hleaf => by
      rw [normalize_leaf, normalize_leaf]
      exact .leaf s s' hl hm hleaf
  | .roles s s' r h hroles hne => by
      simp only [Phrase.normalize, normalizeAll, Query.NormalForm.close, normalizeAll_names]
      exact .roles s s' r h.normalize hroles hne
  | .subselect distinct s₁ s₂ s₃ s₁' s₂' s₃' hranges hjoins hselect hrest hfinal hexact => by
      have hitems := hranges.normalizeAll_eq hjoins.normalize_eq.1 hjoins.normalize_eq.2
      have hsame := fun h => congrArg Phrase.normalize (hexact h)
      simp only [Phrase.normalize, normalizeAll, Query.NormalForm.close, hitems.1, hitems.2]
        at hsame ⊢
      exact .subselect distinct s₁ s₂ s₃ s₁' s₂' s₃' hranges hjoins hselect.normalizeAll
        hrest.normalizeAll (normalizeAll_isFinalClause hfinal) hsame
  | .compound s s' hcompound h => h.normalizeAll.close s s' hcompound

theorem AllCorrespond.normalizeAll {k : Link} {i j : Nat} {ρ : Pairs} {ts us : List Phrase} :
    AllCorrespond k i j ρ ts us → AllCorrespond k i j ρ (normalizeAll ts) (normalizeAll us)
  | .nil => .nil
  | .cons h hs => .cons h.normalize hs.normalizeAll

end

end RowGuard
