import RowGuard.Evaluation.Delegation
import RowGuard.Proofs.Answers

/-!
# Answers of the store

A subselect that is the same on both sides becomes the same query to the store
when the environments agree: all that is taken from around it has the same
value on both sides.
-/

namespace RowGuard

open Query (AliasDefinition Label Phrase Statement)
open Query.Phrase

namespace Delegation

variable {ev : Evaluator} {evaluate evaluate' : Phrase → Eval Value}
variable {env env' : Environment} {k : Link} {declared : List String}

theorem close_declared {n : String} (hmem : n ∈ declared) (s : Source.Span) :
    close evaluate env declared (.node (.identifier n) [] s) =
      pure (.node (.identifier n) [] s) := by
  simp [close, closeReference, rootAlias?, hmem]

theorem close_entityName (name : String) (s : Source.Span) :
    close evaluate env declared (.node (.entityName name) [] s) =
      pure (.node (.entityName name) [] s) := by
  simp [close, closeAll]

theorem close_join (outer fetch : Bool) (cs : List Phrase) (s : Source.Span) :
    close evaluate env declared (.node (.join outer fetch) cs s) =
      checkJoin declared (.node (.join outer fetch) cs s) := by
  simp [close]

theorem closeAll_congr {ts : List Phrase}
    (h : ∀ t ∈ ts, close evaluate env declared t = close evaluate' env' declared t) :
    closeAll evaluate env declared ts = closeAll evaluate' env' declared ts := by
  induction ts with
  | nil => rfl
  | cons t ts ih =>
      simp only [closeAll]
      rw [h t (by simp), ih fun u hu => h u (List.mem_cons_of_mem t hu)]

/-- Joins are closed without evaluating anything. -/
theorem close_of_mem_joins {ρ P D E : Pairs} {js ks : List Phrase}
    (h : JoinsCorrespond k ρ P D js ks E) :
    ∀ j ∈ js, close evaluate env declared j = close evaluate' env' declared j := by
  induction h with
  | nil => simp
  | bare _ _ _ _ _ _ _ _ ih =>
      intro j hj
      rcases List.mem_cons.mp hj with rfl | hj
      · rw [close_join, close_join]
      · exact ih j hj
  | named _ _ _ _ _ _ _ _ _ _ _ _ _ _ ih =>
      intro j hj
      rcases List.mem_cons.mp hj with rfl | hj
      · rw [close_join, close_join]
      · exact ih j hj

/-- So are ranges, whose own aliases are all declared. -/
theorem close_of_mem_ranges {D E : Pairs} {items items' : List Phrase}
    (h : RangesCorrespond D items items' E) (hdeclared : ∀ p ∈ E, p.1 ∈ declared)
    (hjoins : ∀ j ∈ joinsOf items,
      close evaluate env declared j = close evaluate' env' declared j) :
    (∀ p ∈ D, p.1 ∈ declared) ∧
      ∀ t ∈ items, close evaluate env declared t = close evaluate' env' declared t := by
  induction h with
  | nil => exact ⟨hdeclared, by simp⟩
  | @cons D E items items' js ks a b entity s₁ s₂ s₃ s₁' s₂' s₃' _ _ _ _ ih =>
      simp only [joinsOf, List.flatMap_cons, List.mem_append] at hjoins
      obtain ⟨hD, hitems⟩ := ih hdeclared fun j hj => hjoins j (Or.inr hj)
      refine ⟨fun p hp => hD p (List.mem_cons_of_mem _ hp), fun t ht => ?_⟩
      rcases List.mem_cons.mp ht with rfl | ht
      · have hname : a ∈ declared := hD (a, b) (by simp)
        have hjs : closeAll evaluate env declared js = closeAll evaluate' env' declared js :=
          closeAll_congr fun j hj => hjoins j (Or.inl (by simpa [Phrase.children] using hj))
        have hitem : closeAll evaluate env declared
              (.node (.entityName entity) [] s₁ :: .node (.identifier a) [] s₂ :: js) =
            closeAll evaluate' env' declared
              (.node (.entityName entity) [] s₁ :: .node (.identifier a) [] s₂ :: js) := by
          simp only [closeAll, close_entityName, close_declared hname, hjs]
        simp only [close, hitem]
      · exact hitems t ht

theorem close_reference {t : Phrase} {n : String} {ws : List String}
    (ht : t.IsReference n ws) (hvalue : n ∉ declared → evaluate t = evaluate' t)
    (hheld : n ∉ declared → env.held n = env'.held n) :
    close evaluate env declared t = close evaluate' env' declared t := by
  have hclose : ∀ (evaluate : Phrase → Eval Value) (env : Environment),
      close evaluate env declared t = closeReference evaluate env declared t := by
    intro evaluate env
    cases ht <;> simp [close]
  rw [hclose, hclose]
  unfold closeReference
  rw [ht.rootAlias?_eq]
  by_cases hmem : n ∈ declared
  · simp [hmem]
  · simp only [hvalue hmem, Environment.alias?_eq_head?, hheld hmem]

theorem close_leaf {l : Label} (hleaf : l.isLeaf) (s : Source.Span)
    (hcontext : env.context? = env'.context?) (hpositional : env.positional = env'.positional) :
    close evaluate env declared (.node l [] s) = close evaluate' env' declared (.node l [] s) := by
  cases l <;> first
    | exact absurd hleaf Bool.false_ne_true
    | simp [close, closeAll, hcontext, Environment.positional?, hpositional]

theorem close_compound {l : Label} (hcompound : l.isCompound) (ts : List Phrase)
    (s : Source.Span) : close evaluate env declared (.node l ts s) = (do
      let inner ← closeAll evaluate env declared ts
      return .node l inner s) := by
  cases l <;> first
    | exact absurd hcompound Bool.false_ne_true
    | simp [close]

/-- Where a name that is not declared refers to itself, both sides hold the same. -/
def OutsideAgrees (k : Link) (ρ : Pairs) (declared : List String) (env env' : Environment) :
    Prop :=
  ∀ n, n ∉ declared → Refers k ρ n n [] → env.held n = env'.held n

/-- Evaluations that read references to the same names alike. -/
def ReferencesAgree (k : Link) (ρ : Pairs) (declared : List String)
    (evaluate evaluate' : Phrase → Eval Value) : Prop :=
  ∀ t n ws, t.IsReference n ws → n ∉ declared → Refers k ρ n n [] → evaluate t = evaluate' t

/-- What is outside of a subselect is outside of what is around it. -/
theorem outside_subselect {ρ P : Pairs} {names : List String} {n : String}
    (hnames : P.map Prod.fst = names.reverse) (hn : n ∉ declared ++ names)
    (href : Refers k (P ++ ρ) n n []) : n ∉ declared ∧ Refers k ρ n n [] := by
  rw [List.mem_append, not_or] at hn
  rcases href.append_cases with ⟨hmem, -⟩ | ⟨-, href⟩
  · have hmem : n ∈ P.map Prod.fst := List.mem_map_of_mem hmem
    rw [hnames, List.mem_reverse] at hmem
    exact absurd hmem hn.2
  · exact ⟨hn.1, href⟩

theorem OutsideAgrees.inner {ρ P : Pairs} {names : List String}
    (hnames : P.map Prod.fst = names.reverse) (h : OutsideAgrees k ρ declared env env') :
    OutsideAgrees k (P ++ ρ) (declared ++ names) env env' := by
  intro n hn href
  obtain ⟨hn, href⟩ := outside_subselect hnames hn href
  exact h n hn href

theorem ReferencesAgree.inner {ρ P : Pairs} {names : List String}
    (hnames : P.map Prod.fst = names.reverse)
    (h : ReferencesAgree k ρ declared evaluate evaluate') :
    ReferencesAgree k (P ++ ρ) (declared ++ names) evaluate evaluate' := by
  intro t n ws ht hn href
  obtain ⟨hn, href⟩ := outside_subselect hnames hn href
  exact h t n ws ht hn href

/-- The clauses of a subselect are closed alike when the selected expressions and
the last clauses are. -/
theorem closeAll_clauses {ρ D P : Pairs} {distinct : Bool}
    {cs items items' rest : List Phrase} {s₁ s₂ : Source.Span}
    (hranges : RangesCorrespond [] items items' D)
    (hjoins : JoinsCorrespond k ρ P D (joinsOf items) (joinsOf items') P)
    {names : List String} (hnames : P.map Prod.fst = names.reverse)
    (hdeclared : ∀ n ∈ names, n ∈ declared)
    (hselect : closeAll evaluate env declared cs = closeAll evaluate' env' declared cs)
    (hrest : closeAll evaluate env declared rest = closeAll evaluate' env' declared rest) :
    closeAll evaluate env declared
        (.node (.selectClause distinct) cs s₁ :: .node .fromClause items s₂ :: rest) =
      closeAll evaluate' env' declared
        (.node (.selectClause distinct) cs s₁ :: .node .fromClause items s₂ :: rest) := by
  have hsub : ∀ p ∈ D, p.1 ∈ declared := by
    intro p hp
    refine hdeclared _ (List.mem_reverse.mp (hnames ▸ ?_))
    rw [hjoins.map_pairs.1]
    exact List.mem_append_right _ (List.mem_map_of_mem hp)
  have hitems : closeAll evaluate env declared items = closeAll evaluate' env' declared items :=
    closeAll_congr (close_of_mem_ranges hranges hsub (close_of_mem_joins hjoins)).2
  simp only [closeAll, close, hselect, hitems, hrest]

mutual

/-- A phrase that corresponds to itself is closed alike on both sides. -/
theorem close_agree (hcontext : env.context? = env'.context?)
    (hpositional : env.positional = env'.positional) :
    ∀ {i j : Nat} {ρ : Pairs} {declared : List String} {t u : Phrase},
      Corresponds k i j ρ t u → t = u → OutsideAgrees k ρ declared env env' →
      ReferencesAgree k ρ declared evaluate evaluate' →
      close evaluate env declared t = close evaluate' env' declared t
  | _, _, _, _, _, _, .reference (n := n) (x := x) ht hu href, hsame, hheld, hvalue => by
      subst hsame
      obtain ⟨rfl, hws⟩ := ht.eq_and_eq hu
      rw [List.self_eq_append_left.mp hws] at href
      exact close_reference ht (fun hn => hvalue _ _ _ ht hn href) fun hn => hheld _ hn href
  | _, _, _, _, _, _, .leaf s s' hl _ _, _, _, _ => close_leaf hl s hcontext hpositional
  | _, _, _, _, _, _, @Corresponds.roles _ _ _ _ _ _ names s s' r _ _ _, hsame, _, _ => by
      simp only [Phrase.node.injEq, List.cons.injEq, true_and] at hsame
      rcases names with _ | ⟨name, names⟩
      · cases hsame.1.2
      · simp [namedParameter, build] at hsame
  | _, _, _, _, _, _, @Corresponds.subselect _ _ _ _ _ _ cs _ items _ rest _ distinct s₁ s₂ s₃ s₁' s₂' s₃'
      hranges hjoins hselect hrest hfinal hexact, hsame, hheld, hvalue => by
      simp only [Phrase.node.injEq, List.cons.injEq, true_and] at hsame
      have hnames := (pairs_eq_declaredAliases hranges hjoins).1
      rw [← declaredAliases_subselect distinct cs items rest s₁ s₂ s₃] at hnames
      rw [close_subselect, close_subselect]
      rw [closeAll_clauses hranges hjoins hnames (fun n hn => List.mem_append_right _ hn)
        (closeAll_agree hcontext hpositional hselect hsame.1.1.1 (hheld.inner hnames)
          (hvalue.inner hnames))
        (closeAll_agree hcontext hpositional hrest hsame.1.2.2 (hheld.inner hnames)
          (hvalue.inner hnames))]
  | _, _, _, _, _, _, .compound s s' hcompound h, hsame, hheld, hvalue => by
      simp only [Phrase.node.injEq, true_and] at hsame
      rw [close_compound hcompound, close_compound hcompound,
        closeAll_agree hcontext hpositional h hsame.1 hheld hvalue]

theorem closeAll_agree (hcontext : env.context? = env'.context?)
    (hpositional : env.positional = env'.positional) :
    ∀ {i j : Nat} {ρ : Pairs} {declared : List String} {ts us : List Phrase},
      AllCorrespond k i j ρ ts us → ts = us → OutsideAgrees k ρ declared env env' →
      ReferencesAgree k ρ declared evaluate evaluate' →
      closeAll evaluate env declared ts = closeAll evaluate' env' declared ts
  | _, _, _, _, _, _, .nil, _, _, _ => rfl
  | _, _, _, _, _, _, .cons h hs, hsame, hheld, hvalue => by
      rw [List.cons.injEq] at hsame
      simp only [closeAll]
      rw [close_agree hcontext hpositional h hsame.1 hheld hvalue,
        closeAll_agree hcontext hpositional hs hsame.2 hheld hvalue]

end

/-- The clauses of a subselect that corresponds to itself. -/
theorem closeAll_children {i j : Nat} {ρ : Pairs} {t u : Phrase}
    (hcontext : env.context? = env'.context?) (hpositional : env.positional = env'.positional)
    (h : Corresponds k i j ρ t u) (hsame : t = u) (hlabel : t.label = .subselect)
    (hheld : OutsideAgrees k ρ [] env env') (hvalue : ReferencesAgree k ρ [] evaluate evaluate') :
    closeAll evaluate env t.declaredAliases t.children =
      closeAll evaluate' env' t.declaredAliases t.children := by
  cases h with
  | reference ht _ _ => rcases ht.label_cases with hl | hl <;> rw [hl] at hlabel <;> cases hlabel
  | leaf s s' hl _ _ => cases hlabel; cases hl
  | roles => cases hlabel
  | compound s s' hcompound _ => cases hlabel; cases hcompound
  | @subselect _ _ _ _ _ cs _ items _ rest _ distinct s₁ s₂ s₃ s₁' s₂' s₃' hranges hjoins hselect hrest =>
      simp only [Phrase.node.injEq, List.cons.injEq, true_and] at hsame
      have hnames := (pairs_eq_declaredAliases hranges hjoins).1
      rw [← declaredAliases_subselect distinct cs items rest s₁ s₂ s₃] at hnames
      have hheld := hheld.inner hnames
      have hvalue := hvalue.inner hnames
      rw [List.nil_append] at hheld hvalue
      exact closeAll_clauses hranges hjoins hnames (fun n hn => hn)
        (closeAll_agree hcontext hpositional hselect hsame.1.1.1 hheld hvalue)
        (closeAll_agree hcontext hpositional hrest hsame.1.2.2 hheld hvalue)

/-- The store is asked the same for a subselect that is the same on both sides. -/
theorem answer_eq {lenient : Prop} {i j : Nat} {ρ : Pairs} {qs : Definitions}
    {evaluate evaluate' : Environment → Phrase → Eval Value} {s s' : Statement}
    (hexact : k.exact) (henv : EnvironmentsAgree lenient ev k ρ env env')
    (h : StatementsAgree lenient ev.mapping k i j ρ (env.scope ev.world)
      (env'.scope ev.world) qs s s')
    (halike : EvaluatesAlike lenient ev k i j evaluate evaluate') :
    answer ev (evaluate env) env s = answer ev (evaluate' env') env' s' := by
  obtain ⟨hnamed, hpositional, hcontext⟩ := henv.same hexact
  obtain ⟨hphrase, haliases, hparameters⟩ := h.same hexact
  have hheld : OutsideAgrees k ρ [] env env' := by
    intro n _ href
    rcases henv.names n n [] href with ⟨-, hheld⟩ | ⟨-, hne, -⟩
    · exact hheld
    · exact absurd rfl hne
  have hvalue : ReferencesAgree k ρ [] (evaluate env) (evaluate' env') := by
    intro t n ws ht _ href
    rw [halike.reference env ht, halike.reference' env' ht, henv.referenceValue href]
    rfl
  have hown : ∀ names, ownParameters env names = ownParameters env' names := by
    intro names
    induction names with
    | nil => rfl
    | cons name names ih => simp only [ownParameters, Environment.named?, hnamed, ih]
  have hchildren : closeAll (evaluate env) env s.aliases s.phrase.children =
      closeAll (evaluate' env') env' s'.aliases s'.phrase.children := by
    rw [← haliases, ← hphrase, h.aliases]
    exact closeAll_children hcontext hpositional h.phrase hphrase h.label hheld hvalue
  unfold answer standalone
  rw [hown, hparameters, hchildren, hphrase]

end Delegation

end RowGuard
