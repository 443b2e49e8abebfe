import RowGuard.Proofs.Congruence
import RowGuard.Proofs.Instantiations
import RowGuard.Proofs.NormalForms

/-!
# Exchanged leaves

A condition in which parameters stand for parts of the context differs from the one
it was made from in leaves only, and in memberships in the roles, which list one
parameter for each role.  What declares names and what refers to them is the same
phrase in both.  So both are checked in the same steps, fail for the same reasons at
the same places, and find the same replacements for their aliases.
-/

namespace RowGuard

open Query (AliasDefinition Label Phrase ScopeError Statement TypeModel)
open Query.Phrase
open Query.Scope
open Enumeration
open Restriction (Names isNaming names_node)

/-! ## Outcomes that match -/

/-- Both succeed with related results, or both fail for the same reason. -/
def Outcome.Matches {ε α β : Type} (R : α → β → Prop) : Except ε α → Except ε β → Prop
  | .ok a, .ok b => R a b
  | .error e, .error f => e = f
  | _, _ => False

namespace Outcome.Matches

variable {ε α β γ δ : Type} {R : α → β → Prop} {S : γ → δ → Prop}

theorem refl {R : α → α → Prop} (hR : ∀ a, R a a) (x : Except ε α) : Matches R x x := by
  cases x with
  | error e => rfl
  | ok a => exact hR a

theorem bind {x : Except ε α} {y : Except ε β} {f : α → Except ε γ} {g : β → Except ε δ}
    (h : Matches R x y) (hnext : ∀ a b, R a b → Matches S (f a) (g b)) :
    Matches S (x >>= f) (y >>= g) := by
  rcases x with e | a <;> rcases y with e' | b
  · exact h
  · exact h.elim
  · exact h.elim
  · exact hnext a b h

/-- What two steps find is put together, if both succeed. -/
theorem append {x y x' y' : Except ε (List α)} (h : Matches (fun _ _ => True) x y)
    (h' : Matches (fun _ _ => True) x' y') :
    Matches (fun _ _ => True) (x >>= fun as => x' >>= fun bs => pure (as ++ bs))
      (y >>= fun as => y' >>= fun bs => pure (as ++ bs)) :=
  h.bind fun _ _ _ => h'.bind fun _ _ _ => trivial

end Outcome.Matches

open Outcome (Matches)

/-! ## Names -/

section Naming

variable {t : Phrase}

theorem Restriction.Names.label_ne (h : Names t) {l : Label} (hl : isNaming l = false) :
    t.label ≠ l := by
  rintro rfl
  exact absurd (h t (mem_nodes_self t)) (by simp [hl])

theorem Restriction.Names.label_not_compound (h : Names t) : t.label.isCompound = false := by
  have hl := h t (mem_nodes_self t)
  revert hl
  generalize t.label = l
  intro hl
  cases l <;> first | rfl | cases hl

theorem Restriction.Names.isNormal (h : Names t) : t.IsNormal := by
  intro l cs s hmem
  have hl : isNaming l = true := h _ hmem
  constructor
  · rintro (rfl | rfl) <;> cases hl
  · rintro rfl
    cases hl

theorem names_ofDotted (text : String) : Names (ofDotted text) := by
  unfold ofDotted path
  split
  · exact names_node rfl _ (by simp)
  · refine names_node rfl _ fun t ht => ?_
    rcases List.mem_cons.mp ht with rfl | ht
    · exact names_node rfl _ (by simp)
    · obtain ⟨w, -, rfl⟩ := List.mem_map.mp ht
      exact names_node rfl _ (by simp)

end Naming

/-! ## The relation -/

/-- The leaves that may be exchanged for each other, and the parameters that may be
listed for the roles. -/
structure LeafExchange where
  leaf : Label → Label → Prop
  roles : List String → Prop

mutual

/-- The second phrase is the first one with leaves exchanged. -/
inductive Exchanged (x : LeafExchange) : Phrase → Phrase → Prop
  | names {t : Phrase} : Names t → Exchanged x t t
  | leaf {l m : Label} (s s' : Source.Span) :
      l.isLeaf → m.isLeaf → x.leaf l m → Exchanged x (.node l [] s) (.node m [] s')
  | roles {t u : Phrase} {names : List String} (s r : Source.Span) :
      Exchanged x t u → x.roles names → names ≠ [] →
        Exchanged x (.node .isIn [t, .node (.context .roles) [] r] s)
          (.node .isIn (u :: names.map namedParameter) s)
  | subselect {ts us : List Phrase} (s : Source.Span) :
      AllExchanged x ts us → Exchanged x (.node .subselect ts s) (.node .subselect us s)
  | compound {l : Label} {ts us : List Phrase} (s : Source.Span) :
      l.isCompound → AllExchanged x ts us → Exchanged x (.node l ts s) (.node l us s)

inductive AllExchanged (x : LeafExchange) : List Phrase → List Phrase → Prop
  | nil : AllExchanged x [] []
  | cons {t u : Phrase} {ts us : List Phrase} :
      Exchanged x t u → AllExchanged x ts us → AllExchanged x (t :: ts) (u :: us)

end

variable {x : LeafExchange} {t u : Phrase} {ts us : List Phrase}

theorem AllExchanged.forall₂ (h : AllExchanged x ts us) : List.Forall₂ (Exchanged x) ts us := by
  induction ts generalizing us with
  | nil => cases h; exact .nil
  | cons t ts ih =>
      cases h with
      | cons hfirst hrest => exact .cons hfirst (ih hrest)

theorem AllExchanged.of_forall₂ (h : List.Forall₂ (Exchanged x) ts us) :
    AllExchanged x ts us := by
  induction h with
  | nil => exact .nil
  | cons hfirst _ ih => exact .cons hfirst ih

/-! ## Labels -/

namespace Exchanged

theorem label_cases (h : Exchanged x t u) :
    t.label = u.label ∨ (t.label.isLeaf ∧ u.label.isLeaf) := by
  cases h with
  | leaf s s' hl hm _ => exact Or.inr ⟨hl, hm⟩
  | _ => exact Or.inl rfl

/-- A test of labels that no leaf passes has the same outcome on both sides. -/
theorem label_test (h : Exchanged x t u) {p : Label → Bool} (hp : ∀ l, l.isLeaf → p l = false) :
    p t.label = p u.label := by
  rcases h.label_cases with heq | ⟨ht, hu⟩
  · rw [heq]
  · rw [hp _ ht, hp _ hu]

theorem label_eq_iff (h : Exchanged x t u) {l : Label} (hl : l.isLeaf = false) :
    t.label = l ↔ u.label = l := by
  rcases h.label_cases with heq | ⟨ht, hu⟩
  · rw [heq]
  · exact ⟨by rintro rfl; simp [hl] at ht, by rintro rfl; simp [hl] at hu⟩

theorem isAtomic_eq (h : Exchanged x t u) : t.label.isAtomic = u.label.isAtomic := by
  rcases h.label_cases with heq | ⟨ht, hu⟩
  · rw [heq]
  · rw [isAtomic_of_isLeaf ht, isAtomic_of_isLeaf hu]

theorem identifier?_eq (h : Exchanged x t u) : t.identifier? = u.identifier? := by
  have hleaf : ∀ l : Label, l.isLeaf → ∀ y, l ≠ .identifier y := by rintro _ hl y rfl; cases hl
  cases h with
  | leaf s s' hl hm _ =>
      rw [identifier?_of_not_name (hleaf _ hl), identifier?_of_not_name (hleaf _ hm)]
  | _ => rfl

/-- Conjunctions, clauses and other phrases made of their children are exchanged child by
child; memberships may list more of them than before. -/
theorem children (h : Exchanged x t u) (hcompound : t.label.isCompound)
    (hmembership : t.label ≠ .isIn) : AllExchanged x t.children u.children := by
  cases h with
  | names ht => exact absurd hcompound (by simp [ht.label_not_compound])
  | @leaf l _ _ _ hl _ _ =>
      have hterminal : l.isCompound := hcompound
      cases l <;> first
        | exact absurd hl Bool.false_ne_true
        | exact absurd hterminal Bool.false_ne_true
  | roles => exact absurd rfl hmembership
  | subselect => cases hcompound
  | compound _ _ hall => exact hall

end Exchanged

/-! ## Normal forms and nesting -/

namespace AllExchanged

theorem append {ts' us' : List Phrase} (h : AllExchanged x ts us) (h' : AllExchanged x ts' us') :
    AllExchanged x (ts ++ ts') (us ++ us') :=
  of_forall₂ (List.rel_append h.forall₂ h'.forall₂)

theorem flatMap_splice {l : Label} (hl : l = .and ∨ l = .or) (h : AllExchanged x ts us) :
    AllExchanged x (ts.flatMap (Query.NormalForm.splice l))
      (us.flatMap (Query.NormalForm.splice l)) := by
  induction ts generalizing us with
  | nil => cases h; exact .nil
  | cons t ts ih =>
      cases h with
      | @cons _ u _ us hfirst hrest =>
          rw [List.flatMap_cons, List.flatMap_cons]
          refine AllExchanged.append ?_ (ih hrest)
          have hlabel := hfirst.label_eq_iff (l := l) (by rcases hl with rfl | rfl <;> rfl)
          unfold Query.NormalForm.splice
          by_cases ht : t.label = l
          · rw [if_pos ht, if_pos (hlabel.mp ht)]
            exact hfirst.children (by rcases hl with rfl | rfl <;> rw [ht] <;> rfl)
              (by rcases hl with rfl | rfl <;> rw [ht] <;> simp)
          · rw [if_neg ht, if_neg fun hu => ht (hlabel.mpr hu)]
            exact .cons hfirst .nil

theorem close {l : Label} (s : Source.Span) (hcompound : l.isCompound)
    (h : AllExchanged x ts us) :
    Exchanged x (Query.NormalForm.close l ts s) (Query.NormalForm.close l us s) := by
  by_cases hand : l = .and
  · subst hand
    exact .compound s hcompound (h.flatMap_splice (Or.inl rfl))
  by_cases hor : l = .or
  · subst hor
    exact .compound s hcompound (h.flatMap_splice (Or.inr rfl))
  by_cases hbrackets : l = .brackets
  · subst hbrackets
    rcases h with _ | ⟨hfirst, _ | ⟨hsecond, hrest⟩⟩
    · exact .compound s hcompound .nil
    · simp only [Query.NormalForm.close]
      rw [hfirst.isAtomic_eq]
      split
      · exact hfirst
      · exact .compound s hcompound (.cons hfirst .nil)
    · exact .compound s hcompound (.cons hfirst (.cons hsecond hrest))
  have hplain : ∀ cs : List Phrase, Query.NormalForm.close l cs s = .node l cs s := by
    intro cs
    cases l <;> first | rfl | contradiction
  rw [hplain, hplain]
  exact .compound s hcompound h

end AllExchanged

mutual

/-- Normal forms are exchanged like the phrases. -/
theorem Exchanged.normalize : ∀ {t u : Phrase}, Exchanged x t u →
    Exchanged x t.normalize u.normalize
  | _, _, .names ht => by
      rw [ht.isNormal.normalize_eq]
      exact .names ht
  | _, _, .leaf s s' hl hm hleaf => by
      rw [normalize_leaf, normalize_leaf]
      exact .leaf s s' hl hm hleaf
  | _, _, .roles s r h hroles hne => by
      simp only [Phrase.normalize, normalizeAll, Query.NormalForm.close, normalizeAll_names]
      exact .roles s r h.normalize hroles hne
  | _, _, .subselect s h => .subselect s h.normalizeAll
  | _, _, .compound s hcompound h => h.normalizeAll.close s hcompound

theorem AllExchanged.normalizeAll : ∀ {ts us : List Phrase}, AllExchanged x ts us →
    AllExchanged x (normalizeAll ts) (normalizeAll us)
  | _, _, .nil => .nil
  | _, _, .cons h hs => .cons h.normalize hs.normalizeAll

end

theorem depthAll_names (names : List String) : depthAll (names.map namedParameter) = 0 := by
  refine depthAll_eq_zero fun t ht => ?_
  obtain ⟨name, -, rfl⟩ := List.mem_map.mp ht
  rfl

theorem depth_leaf {l : Label} (hl : l.isLeaf) (s : Source.Span) :
    (Phrase.node l [] s).depth = 0 := by
  cases l <;> first | exact absurd hl Bool.false_ne_true | rfl

mutual

theorem Exchanged.depth_eq : ∀ {t u : Phrase}, Exchanged x t u → t.depth = u.depth
  | _, _, .names _ => rfl
  | _, _, .leaf s s' hl hm _ => by rw [depth_leaf hl, depth_leaf hm]
  | _, _, .roles s r h _ _ => by
      simp only [depth, depthAll, depthAll_names, h.depth_eq]
      simp
  | _, _, .subselect s h => by rw [depth, depth, h.depthAll_eq]
  | _, _, .compound s _ h => by rw [depth, depth, h.depthAll_eq]

theorem AllExchanged.depthAll_eq : ∀ {ts us : List Phrase}, AllExchanged x ts us →
    depthAll ts = depthAll us
  | _, _, .nil => rfl
  | _, _, .cons h hs => by rw [depthAll, depthAll, h.depth_eq, hs.depthAll_eq]

end

/-! ## Checks -/

/-- The first child with a label that no leaf has is on both sides the same one. -/
theorem AllExchanged.find? (h : AllExchanged x ts us) {p : Label → Bool}
    (hp : ∀ l, l.isLeaf → p l = false) :
    Option.Rel (fun t u => Exchanged x t u ∧ p t.label) (ts.find? fun t => p t.label)
      (us.find? fun u => p u.label) := by
  induction ts generalizing us with
  | nil => cases h; exact .none
  | cons t ts ih =>
      cases h with
      | @cons _ u _ us hfirst hrest =>
          rw [List.find?_cons, List.find?_cons, ← hfirst.label_test hp]
          cases ht : p t.label with
          | true => exact .some ⟨hfirst, ht⟩
          | false => exact ih hrest

/-- From clauses are the same on both sides. -/
theorem Exchanged.eq_of_fromClause (h : Exchanged x t u) (hlabel : t.label = .fromClause) :
    t = u := by
  cases h with
  | names => rfl
  | @leaf l m s s' hl _ _ =>
      obtain rfl : l = .fromClause := hlabel
      cases hl
  | roles | subselect => cases hlabel
  | @compound l _ _ _ hcompound _ =>
      obtain rfl : l = .fromClause := hlabel
      cases hcompound

/-- What a subselect declares stands in its from clause. -/
theorem declarations_exchanged (h : AllExchanged x ts us) (model? : Option TypeModel)
    (outer : List AliasDefinition) (s : Source.Span) :
    declarations model? .subselect outer (.node .subselect ts s) =
      declarations model? .subselect outer (.node .subselect us s) := by
  have hclause : (Phrase.node .subselect ts s).findChild? (· = .fromClause) =
      (Phrase.node .subselect us s).findChild? (· = .fromClause) := by
    have hrel := h.find? (p := fun l => decide (l = .fromClause))
      fun l hl => decide_eq_false (by rintro rfl; cases hl)
    show ts.find? _ = us.find? _
    revert hrel
    generalize ts.find? _ = clause?
    generalize us.find? _ = clause'?
    rintro (⟨hclause, hlabel⟩ | _)
    · rw [hclause.eq_of_fromClause (of_decide_eq_true hlabel)]
    · rfl
  unfold declarations ranges
  rw [hclause]

theorem declaresOnly_of_isLeaf (l : Label) (hl : l.isLeaf) : declaresOnly l = false := by
  cases l <;> first | exact absurd hl Bool.false_ne_true | rfl

mutual

/-- Both phrases pass the check, or both fail it for the same reason. -/
theorem Exchanged.check (model? : Option TypeModel) (scope : List AliasDefinition) :
    ∀ {t u : Phrase}, Exchanged x t u →
    Matches (fun _ _ => True) (check model? scope t) (check model? scope u)
  | _, _, .names _ => .refl (fun _ => trivial) _
  | _, _, .leaf s s' hl hm _ => by
      rw [check_leaf model? scope hl, check_leaf model? scope hm]
      trivial
  | _, _, .roles s r h _ _ => by
      rw [check_compound model? scope rfl, check_compound model? scope rfl]
      simp only [Query.Scope.checkAll, check_leaf model? scope (l := .context .roles) rfl,
        checkAll_names]
      exact (h.check model? scope).append trivial
  | _, _, .subselect s h => by
      simp only [Query.Scope.check, declarations_exchanged h]
      refine Matches.bind (.refl (R := Eq) (fun _ => rfl) _) ?_
      rintro definitions _ rfl
      exact (h.checkClauses model? (scope ++ definitions)).bind fun _ _ _ => trivial
  | _, _, .compound s hcompound h => by
      rw [check_compound model? scope hcompound, check_compound model? scope hcompound]
      exact h.checkAll model? scope

theorem AllExchanged.checkAll (model? : Option TypeModel) (scope : List AliasDefinition) :
    ∀ {ts us : List Phrase}, AllExchanged x ts us →
    Matches (fun _ _ => True) (checkAll model? scope ts) (checkAll model? scope us)
  | _, _, .nil => trivial
  | _, _, .cons h hs => by
      rw [Query.Scope.checkAll, Query.Scope.checkAll]
      exact (h.check model? scope).append (hs.checkAll model? scope)

theorem AllExchanged.checkClauses (model? : Option TypeModel) (scope : List AliasDefinition) :
    ∀ {ts us : List Phrase}, AllExchanged x ts us →
    Matches (fun _ _ => True) (checkClauses model? scope ts) (checkClauses model? scope us)
  | _, _, .nil => trivial
  | _, _, .cons h hs => by
      rw [Query.Scope.checkClauses, Query.Scope.checkClauses]
      rw [h.label_test declaresOnly_of_isLeaf]
      split
      · exact Matches.append (x := pure []) (y := pure []) trivial (hs.checkClauses model? scope)
      · exact (h.check model? scope).append (hs.checkClauses model? scope)

end

/-! ## Checked subselects -/

mutual

theorem Exchanged.selectedPaths : ∀ {t u : Phrase}, Exchanged x t u →
    t.selectedPaths = u.selectedPaths
  | _, _, .names _ => rfl
  | _, _, .leaf s s' hl hm _ => by rw [selectedPaths_leaf hl, selectedPaths_leaf hm]
  | _, _, .roles _ _ _ _ _ => rfl
  | _, _, .subselect _ _ => rfl
  | _, _, .compound (l := l) s hcompound h => by
      have hall := h.selectedPathsAll
      cases l <;> first | rfl | exact hall | cases hcompound

theorem AllExchanged.selectedPathsAll : ∀ {ts us : List Phrase}, AllExchanged x ts us →
    selectedPathsAll ts = selectedPathsAll us
  | _, _, .nil => rfl
  | _, _, .cons h hs => by
      rw [Query.Phrase.selectedPathsAll, Query.Phrase.selectedPathsAll, h.selectedPaths,
        hs.selectedPathsAll]

end

mutual

theorem Exchanged.contains_isAggregate : ∀ {t u : Phrase}, Exchanged x t u →
    contains isAggregate t = contains isAggregate u
  | _, _, .names _ => rfl
  | _, _, .leaf s s' hl hm _ => by rw [contains_isAggregate_leaf hl, contains_isAggregate_leaf hm]
  | _, _, .roles s r h _ _ => by
      simp only [contains_node, containsAny, List.any_cons, any_isAggregate_names,
        h.contains_isAggregate]
      simp [isAggregate, Phrase.label]
  | _, _, .subselect s h => by
      rw [contains_node, contains_node, h.containsAny_isAggregate]
      rfl
  | _, _, .compound s _ h => by
      rw [contains_node, contains_node, h.containsAny_isAggregate]
      rfl

theorem AllExchanged.containsAny_isAggregate : ∀ {ts us : List Phrase}, AllExchanged x ts us →
    containsAny isAggregate ts = containsAny isAggregate us
  | _, _, .nil => rfl
  | _, _, .cons h hs => by
      have hrest := hs.containsAny_isAggregate
      simp only [containsAny, List.any_cons] at hrest ⊢
      rw [h.contains_isAggregate, hrest]

end

theorem AllExchanged.aggregates (h : AllExchanged x ts us) (l m : Label) (s s' : Source.Span) :
    Enumeration.aggregates (.node l ts s) = Enumeration.aggregates (.node m us s') := by
  simp only [Enumeration.aggregates, Phrase.children]
  have hall := h.forall₂
  clear h
  induction hall with
  | nil => rfl
  | cons hfirst _ ih =>
      rw [List.any_cons, List.any_cons, ih]
      congr 1
      rcases hfirst.label_cases with heq | ⟨ht, hu⟩
      · rw [heq]
        split <;> first | rfl | exact hfirst.contains_isAggregate
      · -- No leaf is a clause, so neither side is one that aggregates.
        refine Eq.trans (b := false) ?_ (Eq.symm ?_)
        · generalize Phrase.label _ = l at ht
          cases l <;> first | exact absurd ht Bool.false_ne_true | rfl
        · generalize Phrase.label _ = l at hu
          cases l <;> first | exact absurd hu Bool.false_ne_true | rfl

/-- Clauses of a kind are exchanged child by child. -/
theorem AllExchanged.clause (h : AllExchanged x ts us) {p : Label → Bool}
    (hp : ∀ l, p l → l.isCompound ∧ l ≠ .isIn ∧ l.isLeaf = false) :
    Option.Rel (fun t u => AllExchanged x t.children u.children)
      (ts.find? fun t => p t.label) (us.find? fun u => p u.label) := by
  have hrel := h.find? (p := p) fun l hl => by
    by_contra hl'
    rw [(hp l (by simpa using hl')).2.2] at hl
    cases hl
  revert hrel
  generalize ts.find? _ = clause?
  generalize us.find? _ = clause'?
  rintro (⟨hclause, hlabel⟩ | _)
  · exact .some (hclause.children (hp _ hlabel).1 (hp _ hlabel).2.1)
  · exact .none

theorem AllExchanged.head? (h : AllExchanged x ts us) :
    Option.Rel (Exchanged x) ts.head? us.head? := by
  cases h with
  | nil => exact .none
  | cons hfirst _ => exact .some hfirst

/-- Checked subselects that differ in the leaves of their conditions only. -/
structure StatementsExchanged (x : LeafExchange) (s s' : Statement) : Prop where
  definitions : s.definitions = s'.definitions
  selectedPaths : s.selectedPaths = s'.selectedPaths
  condition : Option.Rel (Exchanged x) s.condition? s'.condition?
  aggregates : Enumeration.aggregates s.phrase = Enumeration.aggregates s'.phrase

theorem assemble_exchanged (h : AllExchanged x ts us) (s : Source.Span)
    (definitions : List AliasDefinition) (inner inner' : List Statement) :
    StatementsExchanged x (.assemble .subselect (.node .subselect ts s) definitions inner)
      (.assemble .subselect (.node .subselect us s) definitions inner') where
  definitions := rfl
  selectedPaths := by
    have hclause := h.clause (p := Label.isSelectClause) fun l hl => by
      cases l <;> first | exact absurd hl Bool.false_ne_true | exact ⟨rfl, by simp, rfl⟩
    simp only [Statement.assemble, findChild?, Phrase.children]
    revert hclause
    generalize ts.find? _ = clause?
    generalize us.find? _ = clause'?
    rintro (hclause | _)
    · exact hclause.selectedPathsAll
    · rfl
  condition := by
    have hclause := h.clause (p := fun l => decide (l = .whereClause)) fun l hl => by
      rw [of_decide_eq_true hl]
      exact ⟨rfl, by simp, rfl⟩
    show Option.Rel _ ((ts.find? _).bind _) ((us.find? _).bind _)
    revert hclause
    generalize ts.find? _ = clause?
    generalize us.find? _ = clause'?
    rintro (hclause | _)
    · exact hclause.head?
    · exact .none
  aggregates := h.aggregates .subselect .subselect s s

/-- Both subselects can be checked, or neither for the same reason. -/
theorem ofSubselect_exchanged (model? : Option TypeModel) (outer : List AliasDefinition)
    (h : Exchanged x t u) (hlabel : t.label = .subselect) :
    Matches (StatementsExchanged x) (Statement.ofSubselect model? outer t)
      (Statement.ofSubselect model? outer u) := by
  have hlabel' : u.label = .subselect := (h.label_eq_iff rfl).mp hlabel
  have hnormal : t.normalize.label = .subselect := label_normalize_subselect hlabel
  rw [Statement.ofSubselect, Statement.ofSubselect, if_pos hlabel, if_pos hlabel']
  have hphrases := h.normalize
  generalize t.normalize = t at hphrases hnormal
  generalize u.normalize = u at hphrases
  cases hphrases with
  | names ht => exact absurd hnormal (ht.label_ne rfl)
  | leaf s s' hl => cases hnormal; cases hl
  | roles => cases hnormal
  | compound s hcompound => cases hnormal; cases hcompound
  | subselect s hall =>
      simp only [statement, declarations_exchanged hall, Phrase.children]
      refine Matches.bind (.refl (R := Eq) (fun _ => rfl) _) ?_
      rintro definitions _ rfl
      exact (hall.checkClauses model? (outer ++ definitions)).bind fun _ _ _ =>
        assemble_exchanged hall s definitions _ _

/-! ## Replacements -/

mutual

theorem Exchanged.mentioned (aliases : List String) : ∀ {t u : Phrase}, Exchanged x t u →
    mentioned aliases t = mentioned aliases u
  | _, _, .names _ => rfl
  | _, _, .leaf s s' hl hm _ => by rw [mentioned_leaf _ hl, mentioned_leaf _ hm]
  | _, _, .roles s r h _ _ => by
      rw [mentioned_node _ (by simp) (by simp), mentioned_node _ (by simp) (by simp),
        mentionedAll_cons, mentionedAll_cons, mentioned_leaf _ rfl, mentionedAll_cons,
        mentionedAll_names, h.mentioned aliases]
      rfl
  | _, _, .subselect s _ => by rw [mentioned_subselect, mentioned_subselect]
  | _, _, .compound (l := l) s hcompound h => by
      have hname : ∀ y, l ≠ .identifier y := by rintro y rfl; cases hcompound
      have hsub : l ≠ .subselect := by rintro rfl; cases hcompound
      rw [mentioned_node _ hname hsub, mentioned_node _ hname hsub, h.mentionedAll aliases]

theorem AllExchanged.mentionedAll (aliases : List String) : ∀ {ts us : List Phrase},
    AllExchanged x ts us → mentionedAll aliases ts = mentionedAll aliases us
  | _, _, .nil => rfl
  | _, _, .cons h hs => by
      rw [mentionedAll_cons, mentionedAll_cons, h.mentioned aliases, hs.mentionedAll aliases]

end

theorem Exchanged.named (aliases : List String) (h : Exchanged x t u) :
    named aliases t = named aliases u := by
  rw [named_eq_eraseDups, named_eq_eraseDups, h.mentioned]

/-- What an alias is equated with is exchanged with the equality. -/
theorem Exchanged.equated? (name : String) (aliases : List String) (h : Exchanged x t u) :
    Option.Rel (Exchanged x) (equated? name aliases t) (equated? name aliases u) := by
  have hnone : t.label ≠ .compare .equal → Option.Rel (Exchanged x)
      (Enumeration.equated? name aliases t) (Enumeration.equated? name aliases u) := by
    intro hl
    have hl' : u.label ≠ .compare .equal := fun hu => hl ((h.label_eq_iff rfl).mpr hu)
    obtain ⟨l, cs, s⟩ := t
    obtain ⟨m, ds, s'⟩ := u
    change l ≠ _ at hl
    change m ≠ _ at hl'
    rw [equated?_of_not_equal name aliases hl, equated?_of_not_equal name aliases hl']
    exact .none
  by_cases hequal : t.label = .compare .equal
  swap
  · exact hnone hequal
  cases h with
  | names ht => exact absurd hequal (ht.label_ne rfl)
  | leaf s s' hl =>
      obtain rfl := hequal
      cases hl
  | roles | subselect => cases hequal
  | compound s hcompound hall =>
      obtain rfl := hequal
      rcases hall with _ | ⟨hleft, _ | ⟨hright, _ | _⟩⟩
      · exact .none
      · exact .none
      · have hfilter : ∀ {e e' : Phrase}, Exchanged x e e' → Option.Rel (Exchanged x)
            ((some e).filter fun o => !(Enumeration.named aliases o).contains name)
            ((some e').filter fun o => !(Enumeration.named aliases o).contains name) := by
          intro e e' he
          simp only [Option.filter_some, he.named aliases]
          split
          · exact .some he
          · exact .none
        simp only [Enumeration.equated?, hleft.identifier?_eq, hright.identifier?_eq]
        split
        · exact hfilter hright
        · split
          · exact hfilter hleft
          · exact .none
      · exact .none

mutual

/-- The conjuncts of exchanged conditions are exchanged one by one. -/
theorem Exchanged.conjuncts : ∀ {t u : Phrase}, Exchanged x t u →
    List.Forall₂ (Exchanged x) (conjuncts t) (conjuncts u)
  | .node l cs s, _, .names ht => by
      rw [conjuncts_of_other (l := l) (ht.label_ne rfl) (ht.label_ne rfl)]
      exact .cons (.names ht) .nil
  | _, _, .leaf s s' hl hm hleaf => by
      rw [conjuncts_of_other (by rintro rfl; cases hl) (by rintro rfl; cases hl),
        conjuncts_of_other (by rintro rfl; cases hm) (by rintro rfl; cases hm)]
      exact .cons (.leaf s s' hl hm hleaf) .nil
  | _, _, .roles s r h hroles hne => .cons (.roles s r h hroles hne) .nil
  | _, _, .subselect s h => .cons (.subselect s h) .nil
  | _, _, .compound (l := l) s hcompound h => by
      by_cases hand : l = .and
      · subst hand
        exact h.conjunctsAll
      by_cases hbrackets : l = .brackets
      · subst hbrackets
        rcases h with _ | ⟨hfirst, _ | ⟨hsecond, hrest⟩⟩
        · exact .cons (.compound s hcompound .nil) .nil
        · exact hfirst.conjuncts
        · exact .cons (.compound s hcompound (.cons hfirst (.cons hsecond hrest))) .nil
      rw [conjuncts_of_other hand hbrackets, conjuncts_of_other hand hbrackets]
      exact .cons (.compound s hcompound h) .nil

theorem AllExchanged.conjunctsAll : ∀ {ts us : List Phrase}, AllExchanged x ts us →
    List.Forall₂ (Exchanged x) (conjunctsAll ts) (conjunctsAll us)
  | _, _, .nil => .nil
  | _, _, .cons h hs => List.rel_append h.conjuncts hs.conjunctsAll

end

/-- Replacements of one alias by exchanged expressions. -/
structure ReplacementsExchanged (x : LeafExchange) (r r' : Replacement) : Prop where
  definition : r.definition = r'.definition
  expression : Exchanged x r.expression r'.expression
  dependsOn : r.dependsOn = r'.dependsOn

theorem replacement_exchanged (aliases : List String) {conditions conditions' : List Phrase}
    (h : List.Forall₂ (Exchanged x) conditions conditions') (d : AliasDefinition) :
    Matches (ReplacementsExchanged x) (replacement aliases conditions d)
      (replacement aliases conditions' d) := by
  have hexpression : Option.Rel (Exchanged x) (expressionFor? aliases conditions d)
      (expressionFor? aliases conditions' d) := by
    unfold expressionFor?
    cases hjoin : d.joinPath? with
    | some path => exact .some (.names (names_ofDotted path))
    | none =>
        refine firstLeast_rel ?_ fun e e' he => by rw [he.named aliases]
        exact List.rel_filterMap (fun _ _ h => h.equated? d.name aliases) h
  unfold replacement
  revert hexpression
  generalize expressionFor? aliases conditions d = e?
  generalize expressionFor? aliases conditions' d = e'?
  rintro (he | _)
  · exact ⟨rfl, he, he.named aliases⟩
  · rfl

theorem replacements_exchanged {s s' : Statement} (h : StatementsExchanged x s s') :
    Matches (List.Forall₂ (ReplacementsExchanged x)) (replacements s) (replacements s') := by
  have hconditions : List.Forall₂ (Exchanged x) ((s.condition?.map conjuncts).getD [])
      ((s'.condition?.map conjuncts).getD []) := by
    have hcondition := h.condition
    revert hcondition
    generalize s.condition? = condition?
    generalize s'.condition? = condition'?
    rintro (hc | _)
    · exact hc.conjuncts
    · exact .nil
  unfold replacements
  simp only [Statement.aliases, ← h.definitions]
  generalize s.definitions.map AliasDefinition.name = aliases
  generalize s.definitions = definitions
  induction definitions with
  | nil => exact .nil
  | cons d definitions ih =>
      rw [List.mapM_cons, List.mapM_cons]
      exact (replacement_exchanged aliases hconditions d).bind fun _ _ hr =>
        ih.bind fun _ _ hrs => .cons hr hrs

/-- Aliases are bound in the same order, and the same ones stay behind. -/
theorem arrange_exchanged {rs rs' : List Replacement} (bound : List String)
    (h : List.Forall₂ (ReplacementsExchanged x) rs rs') :
    List.Forall₂ (ReplacementsExchanged x) (arrange bound rs).1 (arrange bound rs').1 ∧
      List.Forall₂ (ReplacementsExchanged x) (arrange bound rs).2 (arrange bound rs').2 := by
  induction hlength : rs.length generalizing rs rs' bound with
  | zero =>
      cases List.length_eq_zero_iff.mp hlength
      cases h
      rw [arrange_of_none rfl]
      exact ⟨.nil, .nil⟩
  | succ length ih =>
      have hidx : rs.findIdx? (Replacement.isReady bound) =
          rs'.findIdx? (Replacement.isReady bound) :=
        findIdx?_rel h fun r r' hr => by rw [Replacement.isReady, hr.dependsOn, Replacement.isReady]
      cases hfind : rs.findIdx? (Replacement.isReady bound) with
      | none =>
          rw [arrange_of_none hfind, arrange_of_none (hidx ▸ hfind)]
          exact ⟨.nil, h⟩
      | some n =>
          have hn : n < rs.length := (List.findIdx?_eq_some_iff_findIdx_eq.mp hfind).1
          have hrel := getElem?_rel h n
          rw [List.getElem?_eq_getElem hn] at hrel
          rcases hr' : rs'[n]? with _ | r' <;> rw [hr'] at hrel <;> cases hrel
          rename_i hr
          rw [arrange_of_some hfind (List.getElem?_eq_getElem hn),
            arrange_of_some (hidx ▸ hfind) hr', ← hr.definition]
          have hrest := ih (rs[n].definition.name :: bound) (eraseIdx_rel h n)
            (by rw [List.length_eraseIdx_of_lt hn, hlength]; rfl)
          exact ⟨.cons hr hrest.1, hrest.2⟩

end RowGuard
