import Mathlib.Data.List.Forall2
import RowGuard.Evaluation.Enumeration
import RowGuard.Proofs.Scopes

/-!
# Corresponding subselects

When both of two corresponding subselects can be checked, the checked forms
agree in everything that answering them looks at: what they declare, what they
select, their conditions, and whether they aggregate.
-/

namespace RowGuard

open Query (AliasDefinition Label Phrase ScopeError Statement)
open Query.Phrase
open Query.Scope

/-! ## Selected paths -/

/-- Dotted texts of references that mean the same. -/
def PathsAgree (k : Link) (ρ : Pairs) (path path' : String) : Prop :=
  ∃ n x ws vs, path = Text.Dotted.join (n :: ws) ∧
    path' = Text.Dotted.join (x :: (vs ++ ws)) ∧ (∀ w ∈ n :: ws, IsWord w) ∧
    (∀ w ∈ x :: (vs ++ ws), IsWord w) ∧ Refers k ρ n x vs

theorem Query.Phrase.IsReference.selectedPaths_eq {t : Phrase} {x : String} {ws : List String}
    (h : t.IsReference x ws) : t.selectedPaths = [Text.Dotted.join (x :: ws)] := by
  have hdotted := h.dotted?_eq
  cases h with
  | name => simp [selectedPaths, Text.Dotted.join]
  | path => simp only [selectedPaths, hdotted, Option.toList_some]

theorem Query.Phrase.selectedPaths_leaf {l : Label} (hleaf : l.isLeaf) (s : Source.Span) :
    (Phrase.node l [] s).selectedPaths = [] := by
  cases l <;> first | rfl | cases hleaf

mutual

theorem Corresponds.selectedPaths {k : Link} {i j : Nat} {ρ : Pairs} {t u : Phrase} :
    Corresponds k i j ρ t u → List.Forall₂ (PathsAgree k ρ) t.selectedPaths u.selectedPaths
  | .reference ht hu href => by
      rw [ht.selectedPaths_eq, hu.selectedPaths_eq]
      exact .cons ⟨_, _, _, _, rfl, rfl, ht.parts, hu.parts, href⟩ .nil
  | .leaf s s' hl hm _ => by
      rw [selectedPaths_leaf hl, selectedPaths_leaf hm]
      exact .nil
  | .roles _ _ _ _ _ _ => .nil
  | .subselect _ _ _ _ _ _ _ _ _ _ _ _ _ => .nil
  | .compound (l := l) s s' hcompound h => by
      have hall := h.selectedPathsAll
      cases l <;> first | exact .nil | exact hall | cases hcompound

theorem AllCorrespond.selectedPathsAll {k : Link} {i j : Nat} {ρ : Pairs} {ts us : List Phrase} :
    AllCorrespond k i j ρ ts us →
      List.Forall₂ (PathsAgree k ρ) (selectedPathsAll ts) (selectedPathsAll us)
  | .nil => .nil
  | .cons h hs => List.rel_append h.selectedPaths hs.selectedPathsAll

end

/-! ## Aggregates -/

/-- Whether one of some phrases has a node that passes a test. -/
def containsAny (p : Phrase → Bool) (ts : List Phrase) : Bool := ts.any (contains p)

theorem Query.Phrase.contains_node (p : Phrase → Bool) (l : Label) (ts : List Phrase)
    (s : Source.Span) :
    contains p (.node l ts s) = (p (.node l ts s) || containsAny p ts) := by
  have hall : ∀ us : List Phrase, (visitAll (fun _ => true) us).any p = containsAny p us := by
    intro us
    induction us with
    | nil => rfl
    | cons u us ih =>
        rw [visitAll, List.any_append, ih]
        rfl
  simp [contains, nodes, visit, hall]

def isAggregate (t : Phrase) : Bool :=
  match t.label with
  | .aggregate _ _ => true
  | _ => false

theorem Query.Phrase.AreSegments.containsAny_isAggregate {segments : List Phrase}
    {ws : List String} (h : AreSegments segments ws) :
    containsAny isAggregate segments = false := by
  induction h with
  | nil => rfl
  | cons span hword _ ih =>
      simpa [containsAny, contains_node, isAggregate, Phrase.label] using ih

theorem Query.Phrase.IsReference.contains_isAggregate {t : Phrase} {x : String}
    {ws : List String} (h : t.IsReference x ws) : contains isAggregate t = false := by
  cases h with
  | name => rfl
  | path _ _ _ hsegments =>
      have hnone := hsegments.containsAny_isAggregate
      simp only [containsAny] at hnone
      simp [contains_node, containsAny, isAggregate, Phrase.label, hnone]

theorem contains_isAggregate_leaf {l : Label} (hleaf : l.isLeaf) (s : Source.Span) :
    contains isAggregate (.node l [] s) = false := by
  cases l <;> first | rfl | cases hleaf

theorem any_isAggregate_names (names : List String) :
    (names.map namedParameter).any (contains isAggregate) = false := by
  rw [List.any_map]
  exact List.any_eq_false.mpr fun name _ => by simp; rfl

theorem JoinsCorrespond.containsAny_isAggregate {k : Link} {ρ P D E : Pairs}
    {js ks : List Phrase} (h : JoinsCorrespond k ρ P D js ks E) :
    containsAny isAggregate js = false ∧ containsAny isAggregate ks = false := by
  induction h with
  | nil => exact ⟨rfl, rfl⟩
  | bare outer fetch s s' hp hq _ _ ih =>
      simp only [containsAny, List.any_cons, contains_node, isAggregate, Phrase.label,
        hp.contains_isAggregate, hq.contains_isAggregate] at ih ⊢
      simpa [isAggregate] using ih
  | named outer fetch s s' r r' hp hq _ _ _ _ _ _ ih =>
      simp only [containsAny, List.any_cons, contains_node, isAggregate, Phrase.label,
        hp.contains_isAggregate, hq.contains_isAggregate] at ih ⊢
      simpa [isAggregate] using ih

theorem RangesCorrespond.containsAny_isAggregate {D E : Pairs} {items items' : List Phrase}
    (h : RangesCorrespond D items items' E)
    (hjoins : containsAny isAggregate (joinsOf items) = false)
    (hjoins' : containsAny isAggregate (joinsOf items') = false) :
    containsAny isAggregate items = false ∧ containsAny isAggregate items' = false := by
  induction h with
  | nil => exact ⟨rfl, rfl⟩
  | cons entity s₁ s₂ s₃ s₁' s₂' s₃' _ _ _ _ ih =>
      simp only [containsAny, joinsOf, List.flatMap_cons, List.any_append, Phrase.children,
        List.drop_succ_cons, List.drop_zero, Bool.or_eq_false_iff] at hjoins hjoins' ih
      obtain ⟨hitems, hitems'⟩ := ih hjoins.2 hjoins'.2
      simp only [containsAny, List.any_cons, contains_node, hitems, hitems', hjoins.1, hjoins'.1]
      exact ⟨rfl, rfl⟩

mutual

/-- Corresponding phrases have aggregates both or neither. -/
theorem Corresponds.contains_isAggregate {k : Link} {i j : Nat} {ρ : Pairs} {t u : Phrase} :
    Corresponds k i j ρ t u → contains isAggregate t = contains isAggregate u
  | .reference ht hu _ => by rw [ht.contains_isAggregate, hu.contains_isAggregate]
  | .leaf s s' hl hm _ => by
      rw [contains_isAggregate_leaf hl, contains_isAggregate_leaf hm]
  | .roles s s' r h _ _ => by
      simp only [contains_node, containsAny, List.any_cons, any_isAggregate_names,
        h.contains_isAggregate]
      simp [isAggregate, Phrase.label]
  | .subselect distinct s₁ s₂ s₃ s₁' s₂' s₃' hranges hjoins hselect hrest _ _ => by
      have hitems := hranges.containsAny_isAggregate hjoins.containsAny_isAggregate.1
        hjoins.containsAny_isAggregate.2
      have hcs := hselect.containsAny_isAggregate
      have hfinal := hrest.containsAny_isAggregate
      simp only [contains_node, containsAny, List.any_cons] at hitems hcs hfinal ⊢
      rw [hcs, hfinal, hitems.1, hitems.2]
      rfl
  | .compound s s' _ h => by
      rw [contains_node, contains_node, h.containsAny_isAggregate]
      rfl

theorem AllCorrespond.containsAny_isAggregate {k : Link} {i j : Nat} {ρ : Pairs} {ts us : List Phrase} :
    AllCorrespond k i j ρ ts us → containsAny isAggregate ts = containsAny isAggregate us
  | .nil => rfl
  | .cons h hs => by
      have hrest := hs.containsAny_isAggregate
      simp only [containsAny, List.any_cons] at hrest ⊢
      rw [h.contains_isAggregate, hrest]

end

/-! ## Clauses -/

/-- The clause that a subselect groups by or tests its groups with. -/
def groups (t : Phrase) : Bool := t.label == .groupByClause || t.label == .havingClause

theorem aggregates_final {rest : List Phrase} (s : Source.Span)
    (hfinal : ∀ t ∈ rest, t.label.isFinalClause) :
    Enumeration.aggregates (.node .subselect rest s) = rest.any groups := by
  induction rest with
  | nil => rfl
  | cons t rest ih =>
      have hrest := ih fun u hu => hfinal u (List.mem_cons_of_mem t hu)
      have hlabel := hfinal t (by simp)
      simp only [Enumeration.aggregates, Phrase.children, List.any_cons] at hrest ⊢
      rw [hrest]
      unfold groups
      generalize t.label = l at hlabel ⊢
      cases l <;> first | rfl | cases hlabel

theorem aggregates_subselect (distinct : Bool) (cs items : List Phrase) {rest : List Phrase}
    (s₁ s₂ s₃ : Source.Span) (hfinal : ∀ t ∈ rest, t.label.isFinalClause) :
    Enumeration.aggregates (.node .subselect
      (.node (.selectClause distinct) cs s₁ :: .node .fromClause items s₂ :: rest) s₃) =
    (containsAny isAggregate cs || rest.any groups) := by
  have hselect : contains isAggregate (.node (.selectClause distinct) cs s₁) =
      containsAny isAggregate cs := by
    rw [contains_node]
    rfl
  rw [← aggregates_final s₃ hfinal, ← hselect]
  rfl

theorem AllCorrespond.any_groups {k : Link} {i j : Nat} {ρ : Pairs} {ts us : List Phrase}
    (h : AllCorrespond k i j ρ ts us) : ts.any groups = us.any groups := by
  induction ts generalizing us with
  | nil => cases h; rfl
  | cons t ts ih =>
      cases h with
      | @cons _ _ _ _ u _ us hfirst hrest =>
          have hlabels : ∀ l : Label, l = .groupByClause ∨ l = .havingClause →
              (t.label == l) = (u.label == l) := by
            rintro l hl
            rw [Bool.eq_iff_iff, beq_iff_eq, beq_iff_eq]
            rcases hl with rfl | rfl <;>
              exact hfirst.label_eq_iff rfl (by simp) (by simp)
          simp only [List.any_cons, groups, ih hrest,
            hlabels _ (Or.inl rfl), hlabels _ (Or.inr rfl)]

/-- The first conditions of some clauses correspond. -/
theorem AllCorrespond.condition {k : Link} {i j : Nat} {ρ : Pairs} {ts us : List Phrase}
    (h : AllCorrespond k i j ρ ts us) :
    Option.Rel (Corresponds k i j ρ)
      ((ts.find? fun t => t.label = .whereClause).bind fun t => t.children.head?)
      ((us.find? fun t => t.label = .whereClause).bind fun t => t.children.head?) := by
  induction ts generalizing us with
  | nil => cases h; exact .none
  | cons t ts ih =>
      cases h with
      | @cons _ _ _ _ u _ us hfirst hrest =>
          have hlabel : t.label = .whereClause ↔ u.label = .whereClause :=
            hfirst.label_eq_iff rfl (by simp) (by simp)
          by_cases ht : t.label = .whereClause
          · rw [List.find?_cons_of_pos (by simpa using ht),
              List.find?_cons_of_pos (by simpa using hlabel.mp ht)]
            have hchildren := (hfirst.children (by rw [ht]; rfl) (by rw [ht]; simp)).2
            simp only [Option.bind_some]
            generalize t.children = cs at hchildren ⊢
            generalize u.children = ds at hchildren ⊢
            cases hchildren with
            | nil => exact .none
            | cons hc _ => exact .some hc
          · rw [List.find?_cons_of_neg (by simpa using ht),
              List.find?_cons_of_neg (by simpa using fun hu => ht (hlabel.mpr hu))]
            exact ih hrest

/-! ## Checked subselects -/

/-- Ranges that are the same on both sides declare the same aliases. -/
theorem RangesCorrespond.diagonal {D E : Pairs} {items items' : List Phrase}
    (h : RangesCorrespond D items items' E) (hsame : items = items')
    (hD : ∀ p ∈ D, p.1 = p.2) : ∀ p ∈ E, p.1 = p.2 := by
  induction h with
  | nil => exact hD
  | cons entity s₁ s₂ s₃ s₁' s₂' s₃' _ _ _ _ ih =>
      simp only [List.cons.injEq, Phrase.node.injEq, Label.identifier.injEq, true_and] at hsame
      refine ih hsame.2 fun p hp => ?_
      rcases List.mem_cons.mp hp with rfl | hp
      · exact hsame.1.1.2.1.1
      · exact hD p hp

theorem JoinsCorrespond.diagonal {k : Link} {ρ P D E : Pairs} {js ks : List Phrase}
    (h : JoinsCorrespond k ρ P D js ks E) (hsame : js = ks) (hD : ∀ p ∈ D, p.1 = p.2) :
    ∀ p ∈ E, p.1 = p.2 := by
  induction h with
  | nil => exact hD
  | bare _ _ _ _ _ _ _ _ ih =>
      simp only [List.cons.injEq] at hsame
      exact ih hsame.2 hD
  | named outer fetch s s' r r' _ _ _ _ _ _ _ _ ih =>
      simp only [List.cons.injEq, Phrase.node.injEq, Label.identifier.injEq, true_and] at hsame
      refine ih hsame.2 fun p hp => ?_
      rcases List.mem_cons.mp hp with rfl | hp
      · exact hsame.1.1.2.1.1
      · exact hD p hp

theorem label_normalize_subselect {t : Phrase} (hlabel : t.label = .subselect) :
    t.normalize.label = .subselect := by
  obtain ⟨l, cs, s⟩ := t
  cases hlabel
  rfl

/-- Nothing but subselects is checked as a subselect. -/
theorem Query.Statement.label_of_ofSubselect {model? : Option Query.TypeModel}
    {scope : List AliasDefinition} {t : Phrase} {s : Statement}
    (hs : Statement.ofSubselect model? scope t = .ok s) : t.label = .subselect := by
  by_contra hne
  rw [Statement.ofSubselect, if_neg hne] at hs
  cases hs

section Checked

variable {lenient : Prop} {m : Mapping} {k : Link} {ρ : Pairs}
variable {scope scope' : List AliasDefinition}

/-- Checked subselects that agree in all that answering looks at. -/
structure StatementsAgree (lenient : Prop) (m : Mapping) (k : Link) (i j : Nat) (ρ : Pairs)
    (scope scope' : List AliasDefinition) (qs : Definitions) (s s' : Statement) : Prop where
  left : s.definitions = qs.left
  right : s'.definitions = qs.right
  declared : Declared lenient m k ρ qs.pairs scope scope' qs
  condition : Option.Rel (Corresponds k i j (qs.pairs ++ ρ)) s.condition? s'.condition?
  selected : List.Forall₂ (PathsAgree k (qs.pairs ++ ρ)) s.selectedPaths s'.selectedPaths
  aggregates : Enumeration.aggregates s.phrase = Enumeration.aggregates s'.phrase
  phrase : Corresponds k (i + 1) (j + 1) ρ s.phrase s'.phrase
  label : s.phrase.label = .subselect
  aliases : s.aliases = s.phrase.declaredAliases
  same : k.exact → s.phrase = s'.phrase ∧ s.aliases = s'.aliases ∧ s.parameters = s'.parameters

/-- Subselects with corresponding normal forms have checked forms that agree. -/
theorem ofSubselect_agree {i j : Nat} {t u : Phrase}
    (hscopes : ScopesAgree lenient m k ρ scope scope')
    (h : Corresponds k (i + 1) (j + 1) ρ t.normalize u.normalize)
    (hlabel : t.label = .subselect) (hlabel' : u.label = .subselect) :
    Outcome.Agree lenient ScopeError.isUnresolved
      (fun s s' => ∃ qs, StatementsAgree lenient m k i j ρ scope scope' qs s s')
      (Statement.ofSubselect (some m.model) scope t)
      (Statement.ofSubselect (some m.model) scope' u) := by
  have hnormal : t.normalize.label = .subselect := label_normalize_subselect hlabel
  rw [Statement.ofSubselect, Statement.ofSubselect, if_pos hlabel, if_pos hlabel']
  generalize t.normalize = t at h hnormal
  generalize u.normalize = u at h
  cases h with
  | reference ht _ _ => rcases ht.label_cases with hl | hl <;> rw [hl] at hnormal <;> cases hnormal
  | leaf s s' hl _ _ => cases hnormal; cases hl
  | roles => cases hnormal
  | compound s s' hcompound _ => cases hnormal; cases hcompound
  | subselect distinct s₁ s₂ s₃ s₁' s₂' s₃' hranges hjoins hselect hrest hfinal hexact =>
      have hfinal' := hrest.isFinalClause hfinal
      simp only [statement, declarations_subselect, Phrase.children]
      refine Outcome.Agree.bind (declarations_agree hscopes hranges hjoins) ?_
      rintro ds ds' - - ⟨qs, rfl, rfl, rfl, hdeclared⟩
      have hinner := Declared.scopesAgree hscopes hdeclared.agree
      rw [checkClauses_subselect _ _ _ _ _ _ _ hfinal,
        checkClauses_subselect _ _ _ _ _ _ _ hfinal']
      have hclauses := hselect.checkAll_agree hinner
      have hfinals := hrest.checkAll_agree hinner
      refine Outcome.Agree.bind (R := fun _ _ => True) ?_ fun _ _ _ _ _ => ?_
      · refine Outcome.Agree.bind hclauses fun _ _ _ _ _ => ?_
        exact Outcome.Agree.bind hfinals fun _ _ _ _ _ => trivial
      · have haliases := (pairs_eq_declaredAliases hranges hjoins).1
        rw [Definitions.map_fst_pairs] at haliases
        refine ⟨qs, rfl, rfl, hdeclared, hrest.condition, hselect.selectedPathsAll, ?_,
          .subselect distinct s₁ s₂ s₃ s₁' s₂' s₃' hranges hjoins hselect hrest hfinal hexact,
          rfl, (List.reverse_injective haliases).trans (declaredAliases_subselect ..).symm,
          fun h => ⟨hexact h, ?_, ?_⟩⟩
        show Enumeration.aggregates (.node .subselect _ _) =
          Enumeration.aggregates (.node .subselect _ _)
        rw [aggregates_subselect _ _ _ _ _ _ hfinal, aggregates_subselect _ _ _ _ _ _ hfinal',
          hselect.containsAny_isAggregate, hrest.any_groups]
        · have hphrases := hexact h
          simp only [Phrase.node.injEq, List.cons.injEq, true_and] at hphrases
          have hitems := hphrases.1.2.1.1
          have hdiagonal := hjoins.diagonal (congrArg joinsOf hitems)
            (hranges.diagonal hitems (by simp))
          have hpairs := List.map_congr_left hdiagonal
          rw [Definitions.map_fst_pairs, Definitions.map_snd_pairs] at hpairs
          exact List.reverse_injective hpairs
        · exact congrArg (fun t => Query.sortedNames (namedParameters t)) (hexact h)

end Checked

end RowGuard
