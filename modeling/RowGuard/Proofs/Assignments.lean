import RowGuard.Proofs.Decisions
import RowGuard.Proofs.Rewriting

/-!
# Assignments

A subselect speaks of all assignments of its aliases: a range alias stands for
any object of its type, a join alias for what lies on its path.  Enumeration
tries only the objects that its condition names.  It misses none: an assignment
that meets the condition meets every equality in it, so each alias stands for
what it is equated with, and what was found with fewer aliases bound is what the
whole assignment finds.
-/

namespace RowGuard

open Query (AliasDefinition Label Phrase Statement)
open Query.Phrase
open Query.Scope
open Enumeration

/-! ## The assignments of a subselect -/

/-- Whether a value can be what an alias of a type stands for. -/
def Suits (ev : Evaluator) (type? : Option String) (v : Value) : Prop :=
  ∀ type, type? = some type → ∃ id, v = .entity id ∧ ev.mapping.isInstance ev.world id type

/-- What an alias may stand for where all aliases are bound: any object of the type of a
range, any fitting value on the path of a join, and null where an outer join has none. -/
inductive MayStandFor (ev : Evaluator) (env : Environment) (d : AliasDefinition) : Value → Prop
  | range {id : ObjectId} {type : String} : d.joinPath? = none → d.type? = some type →
      ev.mapping.isInstance ev.world id type → MayStandFor ev env d (.entity id)
  | join {path : String} {v c : Value} : d.joinPath? = some path →
      (ev.value env (ofDotted path)).run.outcome = .ok (some v) → c ∈ v.items →
      Suits ev d.type? c → MayStandFor ev env d c
  | outer {path : String} {v : Value} : d.joinPath? = some path →
      (ev.value env (ofDotted path)).run.outcome = .ok (some v) → d.inner = false →
      (∀ c ∈ v.items, ¬Suits ev d.type? c) → MayStandFor ev env d .null

namespace Query.Statement

/-- The environment of a subselect under an assignment of its aliases. -/
def under (s : Statement) (env : Environment) (a : Bindings Value) : Environment :=
  (env.unbindAliases s.aliases).bindAliases a

/-- An assignment binds each alias of a subselect to something it may stand for and
meets the condition, if there is one. -/
structure Satisfies (ev : Evaluator) (env : Environment) (s : Statement)
    (a : Bindings Value) : Prop where
  names : a.names.Perm s.aliases
  stands : ∀ d ∈ s.definitions, ∀ v, (d.name, v) ∈ a → MayStandFor ev (s.under env a) d v
  holds : ∀ condition, s.condition? = some condition →
    (ev.truth (s.under env a) condition).outcome = .ok (some true)

/-- The row that an assignment makes of the selected paths. -/
def Selects (ev : Evaluator) (env : Environment) (s : Statement) (a : Bindings Value)
    (v : Value) : Prop :=
  ∃ vs, List.Forall₂ (fun path v =>
    (ev.value (s.under env a) (ofDotted path)).run.outcome = .ok (some v)) s.selectedPaths vs ∧
    v = row vs

end Query.Statement

/-! ## Binding some of the names -/

namespace Bindings

variable {α : Type}

theorem held_bindAll_of_mem {bs more : Bindings α} {name : String} {value : α}
    (hnodup : more.names.Nodup) (hfree : bs.held name = []) (hmem : (name, value) ∈ more) :
    (bs.bindAll more).held name = [value] := by
  induction more generalizing bs with
  | nil => cases hmem
  | cons b more ih =>
      rw [names, List.map_cons, List.nodup_cons] at hnodup
      show ((bs.bind b.1 b.2).bindAll more).held name = _
      rcases List.mem_cons.mp hmem with rfl | hmem
      · rw [held_bindAll_of_not_mem _ _ hnodup.1, held_bind_self, hfree]
        rfl
      · have hne : b.1 ≠ name := fun heq => hnodup.1 (heq ▸ List.mem_map_of_mem hmem)
        exact ih hnodup.2 (by rwa [held_bind_of_ne _ _ hne]) hmem

end Bindings

namespace Environment

/-- Of an assignment to names that are free, any part may be bound first. -/
theorem extends_of_subset {env : Environment} {some all : Bindings Value}
    (hsome : some.names.Nodup) (hall : all.names.Nodup) (hsub : some ⊆ all)
    (hfree : ∀ n ∈ all.names, env.held n = []) :
    (env.bindAliases some).Extends (env.bindAliases all) where
  held n hn := by
    by_cases hmem : n ∈ some.names
    · obtain ⟨b, hb, rfl⟩ := List.mem_map.mp hmem
      have hnone := hfree _ (List.mem_map_of_mem (hsub hb))
      exact (Bindings.held_bindAll_of_mem hsome hnone hb).trans
        (Bindings.held_bindAll_of_mem hall hnone (hsub hb)).symm
    · have hsome : (env.bindAliases some).held n = env.held n :=
        Bindings.held_bindAll_of_not_mem env.aliases some hmem
      rw [hsome] at hn ⊢
      exact (Bindings.held_bindAll_of_not_mem env.aliases all fun hmem => hn (hfree n hmem)).symm
  named := rfl
  positional := rfl
  context := rfl
  now := rfl

/-- A reference is read off the value of its root, so further aliases do not touch it. -/
theorem Extends.value_reference {ev : Evaluator} {env env' : Environment}
    (h : env.Extends env') {t : Phrase} {x : String} {ws : List String} (ht : t.IsReference x ws)
    {v : Value} (hv : (ev.value env t).run.outcome = .ok (some v)) :
    (ev.value env' t).run.outcome = .ok (some v) := by
  rw [Evaluator.value, Evaluator.valueAt_reference _ _ ht] at hv ⊢
  have hvalue : Expression.referenceValue ev env x ws = .ok (some v) := hv
  show Expression.referenceValue ev env' x ws = .ok (some v)
  unfold Expression.referenceValue at hvalue ⊢
  cases hroot : env.alias? x with
  | none =>
      rw [hroot] at hvalue
      cases hvalue
  | some root =>
      rw [hroot] at hvalue
      rw [alias?_keeps h x root hroot]
      exact hvalue

end Environment

/-! ## Candidates -/

section Candidates

variable {ev : Evaluator} {c v : Value}

theorem admissible_object [∀ p : Prop, Decidable p] (type? : Option String)
    (seen : List ObjectId) (id : ObjectId) (vs : List Value) :
    admissible ev type? seen (.entity id :: vs) =
      if Suits ev type? (.entity id) ∧ id ∉ seen then
        .entity id :: admissible ev type? (id :: seen) vs
      else admissible ev type? seen vs := by
  cases type? <;> simp [admissible, Suits]

theorem admissible_other [∀ p : Prop, Decidable p] (type? : Option String)
    (seen : List ObjectId) (hv : v.entity? = none) (vs : List Value) :
    admissible ev type? seen (v :: vs) =
      if Suits ev type? v then v :: admissible ev type? seen vs
      else admissible ev type? seen vs := by
  cases v with
  | entity id => cases hv
  | _ => cases type? <;> simp [admissible, Suits]

/-- The admissible values of a list are those that suit the type and are not seen before. -/
theorem mem_admissible_iff {type? : Option String} {seen : List ObjectId} {vs : List Value} :
    c ∈ admissible ev type? seen vs ↔
      c ∈ vs ∧ Suits ev type? c ∧ ∀ id, c = .entity id → id ∉ seen := by
  classical
  induction vs generalizing seen with
  | nil => simp [admissible]
  | cons v vs ih =>
      cases hv : v.entity? with
      | none =>
          have hunseen : c = v → ∀ id, c = .entity id → id ∉ seen := by
            rintro rfl id rfl
            cases hv
          rw [admissible_other type? seen hv]
          by_cases hsuits : Suits ev type? v
          · rw [if_pos hsuits, List.mem_cons, ih, List.mem_cons]
            constructor
            · rintro (heq | h)
              · exact ⟨Or.inl heq, heq ▸ hsuits, hunseen heq⟩
              · exact ⟨Or.inr h.1, h.2⟩
            · rintro ⟨heq | hmem, hrest⟩
              · exact Or.inl heq
              · exact Or.inr ⟨hmem, hrest⟩
          · rw [if_neg hsuits, ih, List.mem_cons]
            constructor
            · exact fun h => ⟨Or.inr h.1, h.2⟩
            · rintro ⟨rfl | hmem, hrest⟩
              · exact absurd hrest.1 hsuits
              · exact ⟨hmem, hrest⟩
      | some id =>
          obtain rfl : v = .entity id := by
            cases v <;> cases hv
            rfl
          rw [admissible_object type? seen id]
          by_cases hnew : Suits ev type? (.entity id) ∧ id ∉ seen
          · rw [if_pos hnew, List.mem_cons, ih, List.mem_cons]
            constructor
            · rintro (rfl | ⟨hmem, hs, hunseen⟩)
              · exact ⟨Or.inl rfl, hnew.1, fun other heq => by cases heq; exact hnew.2⟩
              · exact ⟨Or.inr hmem, hs, fun other heq hin =>
                  hunseen other heq (List.mem_cons_of_mem id hin)⟩
            · rintro ⟨hmem, hs, hunseen⟩
              by_cases heq : c = .entity id
              · exact Or.inl heq
              · refine Or.inr ⟨hmem.resolve_left heq, hs, fun other hother hin => ?_⟩
                rcases List.mem_cons.mp hin with rfl | hin
                · exact heq hother
                · exact hunseen other hother hin
          · rw [if_neg hnew, ih, List.mem_cons]
            constructor
            · exact fun h => ⟨Or.inr h.1, h.2⟩
            · rintro ⟨rfl | hmem, hs, hunseen⟩
              · exact absurd ⟨hs, hunseen id rfl⟩ hnew
              · exact ⟨hmem, hs, hunseen⟩

theorem mem_candidates_iff {d : AliasDefinition} :
    c ∈ candidates ev d v ↔ (c ∈ v.items ∧ Suits ev d.type? c) ∨
      (c = .null ∧ d.inner = false ∧ ∀ b ∈ v.items, ¬Suits ev d.type? b) := by
  have hmem : ∀ b, b ∈ admissible ev d.type? [] v.items ↔ b ∈ v.items ∧ Suits ev d.type? b := by
    intro b
    rw [mem_admissible_iff]
    simp
  unfold candidates
  cases hall : admissible ev d.type? [] v.items with
  | nil =>
      have hnone : ∀ b ∈ v.items, ¬Suits ev d.type? b := fun b hb hs => by
        have hin := (hmem b).mpr ⟨hb, hs⟩
        rw [hall] at hin
        cases hin
      have hno : ¬(c ∈ v.items ∧ Suits ev d.type? c) := fun h => hnone c h.1 h.2
      cases hinner : d.inner
      · simpa [hno] using fun _ => hnone
      · simp [hno]
  | cons b bs =>
      have hsome := (hmem b).mp (hall ▸ List.mem_cons_self)
      show c ∈ b :: bs ↔ _
      rw [← hall, hmem]
      refine ⟨Or.inl, ?_⟩
      rintro (h | ⟨-, -, hnone⟩)
      · exact h
      · exact absurd hsome.2 (hnone b hsome.1)

end Candidates

/-! ## What a condition that holds tells -/

theorem Eval.exists_of_bind {α β : Type} {x : Eval α} {f : α → Eval β} {b : β}
    (h : (x >>= f).run.outcome = .ok (some b)) :
    ∃ a, x.run.outcome = .ok (some a) ∧ (f a).run.outcome = .ok (some b) := by
  rw [OptionT.run_bind] at h
  obtain ⟨a, ha, hb⟩ := Traced.outcome_bind_eq_ok.mp h
  cases a with
  | none => cases hb
  | some a => exact ⟨a, ha, hb⟩

/-- The conjuncts of a phrase are those of its children, or the phrase is its only one. -/
theorem conjuncts_node (l : Label) (cs : List Phrase) (s : Source.Span) :
    conjuncts (.node l cs s) = [.node l cs s] ∨
      (l = .and ∨ l = .brackets ∧ ∃ c, cs = [c]) ∧
        conjuncts (.node l cs s) = conjunctsAll cs := by
  by_cases hand : l = .and
  · subst hand
    exact Or.inr ⟨Or.inl rfl, rfl⟩
  by_cases hbrackets : l = .brackets
  · subst hbrackets
    match cs with
    | [c] => exact Or.inr ⟨Or.inr ⟨rfl, c, rfl⟩, by simp [conjuncts, conjunctsAll]⟩
    | [] => exact Or.inl rfl
    | _ :: _ :: _ => exact Or.inl rfl
  · exact Or.inl (conjuncts_of_other hand hbrackets cs s)

namespace Expression

variable {ev : Evaluator} {sub : Phrase → Eval Value} {env : Environment}

mutual

/-- Of a condition that holds, all conjuncts hold. -/
theorem conjuncts_hold : ∀ {t : Phrase}, (truthOf ev sub env t).outcome = .ok (some true) →
    ∀ u ∈ conjuncts t, (truthOf ev sub env u).outcome = .ok (some true)
  | .node l cs s, h => by
      rcases conjuncts_node l cs s with hself | ⟨hl, hall⟩
      · rw [hself]
        simpa using h
      · rw [hall]
        refine @conjunctsAll_hold cs ?_
        rcases hl with rfl | ⟨rfl, c, rfl⟩
        · by_cases hcs : cs = []
          · simp [hcs]
          · rw [truthOf_ofTruth (value_and hcs s)] at h
            exact allHold_eq_true.mp h
        · unfold truthOf at h ⊢
          rw [value_enclosing (by simp)] at h
          simpa using h

theorem conjunctsAll_hold : ∀ {ts : List Phrase},
    (∀ t ∈ ts, (truthOf ev sub env t).outcome = .ok (some true)) →
      ∀ u ∈ conjunctsAll ts, (truthOf ev sub env u).outcome = .ok (some true)
  | [], _ => by simp [conjunctsAll]
  | t :: ts, h => by
      obtain ⟨ht, hts⟩ := List.forall_mem_cons.mp h
      intro u hu
      rcases List.mem_append.mp hu with hu | hu
      · exact conjuncts_hold ht u hu
      · exact conjunctsAll_hold hts u hu

end

/-- An equality that holds is one of two values that are the same. -/
theorem same_of_equality {left right : Phrase} {s : Source.Span}
    (h : (truthOf ev sub env (.node (.compare .equal) [left, right] s)).outcome =
      .ok (some true)) :
    ∃ l r, (value ev sub env left).run.outcome = .ok (some l) ∧
      (value ev sub env right).run.outcome = .ok (some r) ∧ ev.world.same l r := by
  unfold truthOf at h
  obtain ⟨v?, hv, htrue⟩ := Traced.outcome_bind_eq_ok.mp h
  obtain rfl : v? = some (.boolean true) := by
    have htrue : Operation.truth ev.world v? = .ok (some true) := htrue
    unfold Operation.truth at htrue
    split at htrue <;> cases htrue
    rfl
  rw [value_equal] at hv
  obtain ⟨l, hl, hv⟩ := Eval.exists_of_bind hv
  split at hv
  · cases hv
  · obtain ⟨r, hr, hv⟩ := Eval.exists_of_bind hv
    have hcompare : Operation.compare ev.world .equal l r = .ok (some (.boolean true)) := hv
    have hsame : (!l.isNull && !r.isNull && ev.world.same l r) = true := by
      simpa [Operation.compare, Operation.giveTruth, Arithmetic.give] using hcompare
    simp only [Bool.and_eq_true] at hsame
    exact ⟨l, r, hl, hr, hsame.2⟩

end Expression

mutual

theorem mem_nodes_of_mem_conjuncts : ∀ {t u : Phrase}, u ∈ conjuncts t → u ∈ t.nodes
  | .node l cs s, u, hu => by
      rcases conjuncts_node l cs s with hself | ⟨-, hall⟩
      · rw [hself, List.mem_singleton] at hu
        exact hu ▸ mem_nodes_self _
      · rw [hall] at hu
        obtain ⟨t, ht, hut⟩ := @exists_of_mem_conjunctsAll cs u hu
        exact mem_nodes_of_child ht hut

theorem exists_of_mem_conjunctsAll : ∀ {ts : List Phrase} {u : Phrase}, u ∈ conjunctsAll ts →
    ∃ t ∈ ts, u ∈ t.nodes
  | [], _, hu => by cases hu
  | t :: ts, u, hu => by
      rcases List.mem_append.mp hu with hu | hu
      · exact ⟨t, by simp, mem_nodes_of_mem_conjuncts hu⟩
      · obtain ⟨v, hv, huv⟩ := exists_of_mem_conjunctsAll hu
        exact ⟨v, List.mem_cons_of_mem t hv, huv⟩

end

/-- What equates an alias is an equality that has the alias on one side. -/
theorem exists_of_equated {name : String} {aliases : List String} {t e : Phrase}
    (h : equated? name aliases t = some e) :
    ∃ left right s, t = .node (.compare .equal) [left, right] s ∧
      ((left.identifier? = some name ∧ e = right) ∨
        (right.identifier? = some name ∧ e = left)) := by
  unfold equated? at h
  split at h
  · rename_i left right s
    obtain ⟨hother, -⟩ := Option.filter_eq_some_iff.mp h
    refine ⟨left, right, s, rfl, ?_⟩
    split at hother
    · rename_i hleft
      cases hother
      exact Or.inl ⟨hleft, rfl⟩
    · split at hother
      · rename_i hright
        cases hother
        exact Or.inr ⟨hright, rfl⟩
      · cases hother
  · cases h

theorem value_of_identifier {ev : Evaluator} {sub : Phrase → Eval Value} {env : Environment}
    {t : Phrase} {name : String} (ht : t.identifier? = some name) :
    Expression.value ev sub env t = Eval.ofOutcome (.ok (env.alias? name)) := by
  obtain ⟨l, cs, s⟩ := t
  cases l with
  | identifier n =>
      cases ht
      exact Expression.value_of_terminal rfl cs s
  | _ => cases ht

/-- Where equal objects are one object, an alias stands for what it is equated with. -/
theorem value_of_equated {ev : Evaluator} {sub : Phrase → Eval Value} {env : Environment}
    (hworld : ∀ a b, ev.world.sameObject a b → a = b) {name : String} {aliases : List String}
    {t e : Phrase} (he : equated? name aliases t = some e)
    (h : (Expression.truthOf ev sub env t).outcome = .ok (some true)) {id : ObjectId}
    (hid : env.alias? name = some (.entity id)) :
    (Expression.value ev sub env e).run.outcome = .ok (some (.entity id)) := by
  obtain ⟨left, right, s, rfl, hside⟩ := exists_of_equated he
  obtain ⟨l, r, hl, hr, hsame⟩ := Expression.same_of_equality h
  have hnamed : ∀ {u : Phrase} {v : Value}, u.identifier? = some name →
      (Expression.value ev sub env u).run.outcome = .ok (some v) → v = .entity id := by
    intro u v hu hv
    rw [value_of_identifier hu, hid] at hv
    cases hv
    rfl
  rcases hside with ⟨hleft, rfl⟩ | ⟨hright, rfl⟩
  · obtain rfl := hnamed hleft hl
    cases r with
    | entity other =>
        rw [hr, hworld id other hsame]
    | _ => cases hsame
  · obtain rfl := hnamed hright hr
    cases l with
    | entity other =>
        rw [hl, hworld other id hsame]
    | _ => cases hsame

/-! ## What a checked subselect is made of -/

/-- The parts of a subselect that enumeration looks at: aliases that are declared once,
for ranges and for joins over paths, and paths that are selected. -/
structure Query.Statement.IsPlain (s : Statement) : Prop where
  nodup : s.aliases.Nodup
  declared : ∀ d ∈ s.definitions, (∃ a type, d = .range a type) ∨
    ∃ path x ws, d.joinPath? = some path ∧ (ofDotted path).IsReference x ws
  selected : ∀ path ∈ s.selectedPaths, ∃ x ws, (ofDotted path).IsReference x ws
  condition : ∀ condition, s.condition? = some condition → Query.Grammar.Sound condition

theorem exists_of_forall₂ {α β : Type} {R : α → β → Prop} {as : List α} {bs : List β}
    (h : List.Forall₂ R as bs) {a : α} (ha : a ∈ as) : ∃ b ∈ bs, R a b := by
  induction h with
  | nil => cases ha
  | cons hfirst _ ih =>
      rcases List.mem_cons.mp ha with rfl | ha
      · exact ⟨_, List.mem_cons_self, hfirst⟩
      · obtain ⟨b, hb, hab⟩ := ih ha
        exact ⟨b, List.mem_cons_of_mem _ hb, hab⟩

theorem Query.Statement.isPlain_of_ofSubselect {m : Mapping} {scope : List AliasDefinition}
    {u : Phrase} {s : Statement} (hu : u.WellFormed)
    (hs : Statement.ofSubselect (some m.model) scope u = .ok s) : s.IsPlain := by
  have hlabel := Statement.label_of_ofSubselect hs
  have hself := (within_of_ofSubselect hu hlabel hs).self (d := u.normalize.depth - 1 + 1) (by omega)
  have hscopes : ScopesAgree False m (Link.bound (· ∈ names scope)) [] scope scope := by
    intro n x ws href
    obtain ⟨rfl, rfl, -⟩ := Refers.nil_iff.mp href
    cases hfind : find? scope x with
    | none => exact Or.inl ⟨rfl, rfl, rfl⟩
    | some d => exact Or.inr ⟨d, d, rfl, rfl, Or.inl rfl,
        Or.inr ⟨d.type?, typeFrom_nil _ _, TypesAgree.refl _⟩⟩
  have hagree := ofSubselect_agree hscopes hself hlabel hlabel
  rw [hs] at hagree
  obtain ⟨qs, hqs⟩ := hagree
  refine ⟨?_, fun d hd => ?_, fun path hpath => ?_, fun condition hcondition => ?_⟩
  · rw [Statement.aliases, hqs.left]
    exact hqs.declared.nodup
  · rw [hqs.left] at hd
    obtain ⟨⟨d, d'⟩, hq, rfl⟩ := List.mem_map.mp hd
    cases hqs.declared.agree _ hq with
    | range a b type => exact Or.inl ⟨a, type, rfl⟩
    | join h => exact Or.inr ⟨_, _, _, h.path, isReference_ofDotted h.words⟩
  · obtain ⟨path', -, n, x, ws, vs, rfl, -, hwords, -⟩ := exists_of_forall₂ hqs.selected hpath
    exact ⟨n, ws, isReference_ofDotted hwords⟩
  · have hrel := hqs.condition
    rw [hcondition] at hrel
    cases hrel with
    | some h => exact Query.Grammar.sound_of_within h.within

/-! ## Replacements -/

theorem mem_of_firstLeast {α : Type} {measure : α → Nat} {as : List α} {a : α}
    (h : firstLeast measure as = some a) : a ∈ as := by
  induction as with
  | nil => cases h
  | cons b bs ih =>
      simp only [firstLeast] at h
      split at h
      · rename_i c hc
        split at h
        · exact List.mem_cons_of_mem b (ih (hc.trans h))
        · exact Option.some.inj h ▸ List.mem_cons_self
      · exact Option.some.inj h ▸ List.mem_cons_self

/-- Each alias has one replacement, in the order in which they are declared. -/
theorem replacements_eq_ok {s : Statement} {rs : List Replacement}
    (h : replacements s = .ok rs) :
    rs.map Replacement.definition = s.definitions ∧
      ∀ r ∈ rs, expressionFor? s.aliases ((s.condition?.map conjuncts).getD []) r.definition =
        some r.expression := by
  have hmade : ∀ {d : AliasDefinition} {r : Replacement} {conditions : List Phrase},
      replacement s.aliases conditions d = .ok r → r.definition = d ∧
        expressionFor? s.aliases conditions d = some r.expression := by
    intro d r conditions hr
    unfold replacement at hr
    split at hr
    · rename_i e he
      cases hr
      exact ⟨rfl, he⟩
    · cases hr
  unfold replacements at h
  refine ⟨?_, fun r hr => ?_⟩
  · clear hmade
    revert h
    generalize s.definitions = ds
    intro h
    induction ds generalizing rs with
    | nil =>
        cases h
        rfl
    | cons d ds ih =>
        rw [List.mapM_cons] at h
        obtain ⟨r, hr, h⟩ := ok_of_bind h
        obtain ⟨others, hothers, h⟩ := ok_of_bind h
        cases h
        unfold replacement at hr
        split at hr
        · cases hr
          rw [List.map_cons, ih hothers]
        · cases hr
  · obtain ⟨d, -, hd⟩ := exists_of_mem_mapM h hr
    obtain ⟨rfl, he⟩ := hmade hd
    exact he

theorem arrange_perm (bound : List String) (rs : List Replacement) :
    ((arrange bound rs).1 ++ (arrange bound rs).2).Perm rs := by
  induction hlength : rs.length generalizing bound rs with
  | zero =>
      cases List.length_eq_zero_iff.mp hlength
      rw [arrange_of_none rfl]
      exact List.Perm.refl _
  | succ length ih =>
      cases hfind : rs.findIdx? (Replacement.isReady bound) with
      | none =>
          rw [arrange_of_none hfind]
          exact List.Perm.refl _
      | some n =>
          have hn : n < rs.length := (List.findIdx?_eq_some_iff_findIdx_eq.mp hfind).1
          rw [arrange_of_some hfind (List.getElem?_eq_getElem hn)]
          have hrest := ih (rs[n].definition.name :: bound) (rs.eraseIdx n)
            (by rw [List.length_eraseIdx_of_lt hn, hlength]; rfl)
          exact (hrest.cons rs[n]).trans (List.getElem_cons_eraseIdx_perm hn)

/-! ## Combinations -/

section Combinations

variable {ev : Evaluator} {evaluate : Environment → Phrase → Eval Value} {outer : Environment}

/-- Every combination is extended by all candidates of the alias and by nothing else. -/
theorem extend_eq_ok {r : Replacement} {count : Nat} {vs out : List (Bindings Value)}
    (h : (extend ev evaluate outer r count vs).outcome = .ok out) :
    (∀ v ∈ vs, ∃ w, (evaluate (outer.bindAliases v) r.expression).run.outcome = .ok (some w) ∧
      ∀ c ∈ candidates ev r.definition w, v ++ [(r.definition.name, c)] ∈ out) ∧
    ∀ u ∈ out, ∃ v ∈ vs, ∃ w c,
      (evaluate (outer.bindAliases v) r.expression).run.outcome = .ok (some w) ∧
        c ∈ candidates ev r.definition w ∧ u = v ++ [(r.definition.name, c)] := by
  induction vs generalizing count out with
  | nil =>
      cases h
      simp
  | cons v vs ih =>
      rw [extend] at h
      obtain ⟨w?, hw, h⟩ := Traced.outcome_bind_eq_ok.mp h
      cases w? with
      | none => cases h
      | some w =>
          simp only at h
          split at h
          · cases h
          · obtain ⟨others, hothers, h⟩ := Traced.outcome_bind_eq_ok.mp h
            cases h
            obtain ⟨hmade, honly⟩ := ih hothers
            constructor
            · intro u hu
              rcases List.mem_cons.mp hu with rfl | hu
              · exact ⟨w, hw, fun c hc => List.mem_append_left _ (List.mem_map_of_mem hc)⟩
              · obtain ⟨x, hx, hall⟩ := hmade u hu
                exact ⟨x, hx, fun c hc => List.mem_append_right _ (hall c hc)⟩
            · intro u hu
              rcases List.mem_append.mp hu with hu | hu
              · obtain ⟨c, hc, rfl⟩ := List.mem_map.mp hu
                exact ⟨v, by simp, w, c, hw, hc, rfl⟩
              · obtain ⟨x, hx, hrest⟩ := honly u hu
                exact ⟨x, List.mem_cons_of_mem v hx, hrest⟩

/-- How an alias came to its value in a combination: it is a candidate among what the
replacement was evaluated to when only the first aliases were bound. -/
def Chosen (ev : Evaluator) (evaluate : Environment → Phrase → Eval Value) (outer : Environment)
    (v : Bindings Value) (r : Replacement) (c : Value) : Prop :=
  ∃ before w, before <+: v ∧
    (evaluate (outer.bindAliases before) r.expression).run.outcome = .ok (some w) ∧
    c ∈ candidates ev r.definition w

def Enumeration.Replacement.name (r : Replacement) : String := r.definition.name

theorem foldlM_concat_eq_ok {α β : Type} {f : β → α → Traced β} {as : List α} {a : α} {b c : β} :
    ((as ++ [a]).foldlM f b).outcome = .ok c ↔
      ∃ d, (as.foldlM f b).outcome = .ok d ∧ (f d a).outcome = .ok c := by
  rw [List.foldlM_append, Traced.outcome_bind_eq_ok]
  simp only [List.foldlM_cons, List.foldlM_nil, bind_pure]

theorem names_append_single (v : Bindings Value) (n : String) (c : Value) :
    Bindings.names (v ++ [(n, c)]) = v.names ++ [n] := by
  simp [Bindings.names]

/-- Combinations bind the aliases in their order, each to a value it was given. -/
theorem chosen_of_mem {rs : List Replacement} {found : List (Bindings Value)}
    (h : (rs.foldlM (fun vs r => extend ev evaluate outer r 0 vs) [[]]).outcome = .ok found)
    {v : Bindings Value} (hv : v ∈ found) :
    v.names = rs.map Replacement.name ∧
      ∀ n c, (n, c) ∈ v → ∃ r ∈ rs, r.name = n ∧ Chosen ev evaluate outer v r c := by
  induction rs using List.reverseRecOn generalizing found v with
  | nil =>
      cases h
      obtain rfl := List.mem_singleton.mp hv
      simp [Bindings.names]
  | append_singleton rs r ih =>
      obtain ⟨before, hbefore, h⟩ := foldlM_concat_eq_ok.mp h
      obtain ⟨u, hu, w, c, hw, hc, rfl⟩ := (extend_eq_ok h).2 v hv
      obtain ⟨hnames, hchosen⟩ := ih hbefore hu
      have hbegins : u <+: u ++ [(r.definition.name, c)] := List.prefix_append _ _
      constructor
      · rw [names_append_single, hnames, List.map_append]
        rfl
      · intro n b hb
        rcases List.mem_append.mp hb with hb | hb
        · obtain ⟨o, ho, hn, first, x, hfirst, hrest⟩ := hchosen n b hb
          exact ⟨o, List.mem_append_left _ ho, hn, first, x, hfirst.trans hbegins, hrest⟩
        · cases List.mem_singleton.mp hb
          exact ⟨r, by simp, rfl, u, w, hbegins, hw, hc⟩

/-- An assignment that binds every alias to a candidate, whichever of its aliases are bound
before, is among the combinations. -/
theorem exists_combination {rs : List Replacement} {found : List (Bindings Value)}
    (h : (rs.foldlM (fun vs r => extend ev evaluate outer r 0 vs) [[]]).outcome = .ok found)
    {a : Bindings Value} (ha : ∀ r ∈ rs, ∃ c, (r.name, c) ∈ a ∧ ∀ before, before ⊆ a →
      before.names <+: rs.map Replacement.name → ∀ w,
        (evaluate (outer.bindAliases before) r.expression).run.outcome = .ok (some w) →
          c ∈ candidates ev r.definition w) :
    ∃ v ∈ found, v ⊆ a := by
  induction rs using List.reverseRecOn generalizing found with
  | nil =>
      cases h
      exact ⟨[], by simp, by simp⟩
  | append_singleton rs r ih =>
      obtain ⟨before, hbefore, h⟩ := foldlM_concat_eq_ok.mp h
      have hbegins : rs.map Replacement.name <+: (rs ++ [r]).map Replacement.name := by
        rw [List.map_append]
        exact List.prefix_append _ _
      obtain ⟨v, hv, hsub⟩ := ih hbefore fun o ho => by
        obtain ⟨c, hc, hall⟩ := ha o (List.mem_append_left _ ho)
        exact ⟨c, hc, fun first hfirst hnames => hall first hfirst (hnames.trans hbegins)⟩
      obtain ⟨w, hw, hmade⟩ := (extend_eq_ok h).1 v hv
      obtain ⟨c, hc, hall⟩ := ha r (by simp)
      have hcandidate := hall v hsub ((chosen_of_mem hbefore hv).1 ▸ hbegins) w hw
      exact ⟨_, hmade c hcandidate,
        List.append_subset.mpr ⟨hsub, List.cons_subset.mpr ⟨hc, List.nil_subset a⟩⟩⟩

end Combinations

/-! ## Rows -/

section Rows

variable {ev : Evaluator} {evaluate : Environment → Phrase → Eval Value} {outer env : Environment}

theorem project_eq_ok {paths : List String} {vs : List Value} :
    (project evaluate env paths).outcome = .ok vs ↔ List.Forall₂ (fun path v =>
      (evaluate env (ofDotted path)).run.outcome = .ok (some v)) paths vs := by
  induction paths generalizing vs with
  | nil =>
      constructor
      · intro h
        cases h
        exact .nil
      · intro h
        cases h
        rfl
  | cons path paths ih =>
      rw [project, Traced.outcome_bind_eq_ok]
      constructor
      · rintro ⟨v?, hv, h⟩
        cases v? with
        | none => cases h
        | some v =>
            obtain ⟨others, hothers, h⟩ := Traced.outcome_bind_eq_ok.mp h
            cases h
            exact .cons hv (ih.mp hothers)
      · intro h
        cases h with
        | cons hv hothers =>
            exact ⟨some _, hv, Traced.outcome_bind_eq_ok.mpr ⟨_, ih.mpr hothers, rfl⟩⟩

theorem isAccepted_eq_ok {condition? : Option Phrase} {b : Bool} :
    (isAccepted ev evaluate env condition?).outcome = .ok b →
      (b = true ↔ ∀ condition, condition? = some condition →
        (holds ev evaluate env condition).outcome = .ok (some true)) := by
  intro h
  cases condition? with
  | none =>
      cases h
      simp
  | some condition =>
      obtain ⟨c, hc, h⟩ := Traced.outcome_bind_eq_ok.mp h
      cases c with
      | none => cases h
      | some c =>
          cases h
          simp [hc]

/-- The rows are those of the combinations that are accepted. -/
theorem rows_eq_ok {s : Statement} {vs : List (Bindings Value)} {out : List Value}
    (h : (rows ev evaluate outer s vs).outcome = .ok out) :
    (∀ v ∈ vs, ∃ b, (isAccepted ev evaluate (outer.bindAliases v) s.condition?).outcome = .ok b ∧
      (b = true → ∃ us, (project evaluate (outer.bindAliases v) s.selectedPaths).outcome =
        .ok us ∧ row us ∈ out)) ∧
    ∀ x ∈ out, ∃ v ∈ vs, ∃ us,
      (isAccepted ev evaluate (outer.bindAliases v) s.condition?).outcome = .ok true ∧
        (project evaluate (outer.bindAliases v) s.selectedPaths).outcome = .ok us ∧
          x = row us := by
  induction vs generalizing out with
  | nil =>
      cases h
      simp
  | cons v vs ih =>
      rw [rows] at h
      obtain ⟨b, hb, h⟩ := Traced.outcome_bind_eq_ok.mp h
      cases b with
      | false =>
          obtain ⟨hmade, honly⟩ := ih h
          refine ⟨fun u hu => ?_, fun x hx => ?_⟩
          · rcases List.mem_cons.mp hu with rfl | hu
            · exact ⟨false, hb, by simp⟩
            · exact hmade u hu
          · obtain ⟨u, hu, hrest⟩ := honly x hx
            exact ⟨u, List.mem_cons_of_mem v hu, hrest⟩
      | true =>
          obtain ⟨us, hus, h⟩ := Traced.outcome_bind_eq_ok.mp h
          obtain ⟨others, hothers, h⟩ := Traced.outcome_bind_eq_ok.mp h
          cases h
          obtain ⟨hmade, honly⟩ := ih hothers
          refine ⟨fun u hu => ?_, fun x hx => ?_⟩
          · rcases List.mem_cons.mp hu with rfl | hu
            · exact ⟨true, hb, fun _ => ⟨us, hus, List.mem_cons_self⟩⟩
            · obtain ⟨c, hc, hrow⟩ := hmade u hu
              refine ⟨c, hc, fun htrue => ?_⟩
              obtain ⟨ws, hws, hmem⟩ := hrow htrue
              exact ⟨ws, hws, List.mem_cons_of_mem _ hmem⟩
          · rcases List.mem_cons.mp hx with rfl | hx
            · exact ⟨v, by simp, us, hb, hus, rfl⟩
            · obtain ⟨u, hu, hrest⟩ := honly x hx
              exact ⟨u, List.mem_cons_of_mem v hu, hrest⟩

end Rows

/-! ## Exact answers -/

section Answers

variable {ev : Evaluator} {env : Environment} {s : Statement} {a : Bindings Value}

theorem held_unbound {n : String} (hn : n ∈ s.aliases) :
    (env.unbindAliases s.aliases).held n = [] := by
  rw [Environment.held, Environment.unbindAliases, Bindings.held_unbindAll, if_pos hn]

/-- What the whole assignment makes true was found from every part of it. -/
theorem under_extends (env : Environment) {some all : Bindings Value} (hplain : s.IsPlain)
    (hall : all.names.Perm s.aliases) (hsome : some.names.Nodup) (hsub : some ⊆ all) :
    ((env.unbindAliases s.aliases).bindAliases some).Extends (s.under env all) :=
  Environment.extends_of_subset hsome (hall.nodup_iff.mpr hplain.nodup) hsub fun _ hn =>
    held_unbound (hall.mem_iff.mp hn)

theorem alias?_under (hplain : s.IsPlain) (hnames : a.names.Perm s.aliases) {n : String}
    {v : Value} (hv : (n, v) ∈ a) : (s.under env a).alias? n = some v := by
  have hn : n ∈ a.names := List.mem_map_of_mem hv
  have hheld : (s.under env a).held n = [v] :=
    Bindings.held_bindAll_of_mem (hnames.nodup_iff.mpr hplain.nodup)
      (held_unbound (hnames.mem_iff.mp hn)) hv
  rw [Environment.alias?_eq_head?, hheld]
  rfl

/-- A satisfying assignment gives each alias one of its candidates, whichever aliases are
bound when they are looked for. -/
theorem candidate_of_satisfies (hworld : ∀ a b, ev.world.sameObject a b → a = b)
    (hplain : s.IsPlain) (ha : s.Satisfies ev env a) {r : Replacement}
    (hdefinition : r.definition ∈ s.definitions)
    (hexpression : expressionFor? s.aliases ((s.condition?.map conjuncts).getD []) r.definition =
      some r.expression) {c : Value} (hc : (r.name, c) ∈ a) {before : Bindings Value}
    (hsub : before ⊆ a) (hnodup : before.names.Nodup) {w : Value}
    (hw : (ev.value ((env.unbindAliases s.aliases).bindAliases before) r.expression).run.outcome =
      .ok (some w)) : c ∈ candidates ev r.definition w := by
  have hextends := under_extends env hplain ha.names hnodup hsub
  have hstands := ha.stands r.definition hdefinition c hc
  rw [mem_candidates_iff]
  unfold expressionFor? at hexpression
  -- What the path of a join leads to is settled as soon as its root is bound.
  have hjoin : ∀ {path : String}, r.definition.joinPath? = some path → ∀ {v : Value},
      (ev.value (s.under env a) (ofDotted path)).run.outcome = .ok (some v) → v = w := by
    intro path hpath v hv
    simp only [hpath, Option.some.injEq] at hexpression
    rw [← hexpression] at hw
    rcases hplain.declared r.definition hdefinition with ⟨n, type, hrange⟩ | ⟨p, x, ws, hp, hreference⟩
    · rw [hrange] at hpath
      cases hpath
    · cases hpath.symm.trans hp
      exact Option.some.inj (Except.ok.inj (hv.symm.trans (hextends.value_reference hreference hw)))
  cases hstands with
  | join hpath hv hmem hsuits =>
      obtain rfl := hjoin hpath hv
      exact Or.inl ⟨hmem, hsuits⟩
  | outer hpath hv hinner hnone =>
      obtain rfl := hjoin hpath hv
      exact Or.inr ⟨rfl, hinner, hnone⟩
  | @range id type hpath htype hinstance =>
      rw [hpath] at hexpression
      obtain ⟨t, ht, he⟩ := List.mem_filterMap.mp (mem_of_firstLeast hexpression)
      cases hcondition : s.condition? with
      | none =>
          rw [hcondition] at ht
          cases ht
      | some condition =>
          rw [hcondition] at ht
          have hholds := ha.holds condition hcondition
          rw [Evaluator.truth_eq] at hholds
          have hvalue := value_of_equated hworld he (Expression.conjuncts_hold hholds t ht)
            (alias?_under hplain ha.names hc)
          rw [← Evaluator.valueAt_eq] at hvalue
          have hnode : r.expression ∈ condition.nodes := by
            obtain ⟨left, right, span, rfl, hside⟩ := exists_of_equated he
            refine mem_nodes_trans (mem_nodes_of_mem_conjuncts ht) ?_
            rcases hside with ⟨-, rfl⟩ | ⟨-, rfl⟩ <;>
              exact mem_nodes_of_child (by simp) (mem_nodes_self _)
          have hsound : Query.Grammar.Sound r.expression := fun u hu =>
            hplain.condition condition hcondition u (mem_nodes_trans hnode hu)
          have hkept : Eval.Keeps (ev.valueAt r.expression.depth _ r.expression)
              (ev.valueAt condition.depth _ r.expression) :=
            Evaluator.valueAt_keeps hextends hsound (Nat.le_refl _) (depth_le_of_mem_nodes hnode)
          obtain rfl : w = .entity id := (Option.some.inj (hkept _ _ hw hvalue w rfl)).symm
          exact Or.inl ⟨by simp [Value.items], fun other hother => by
            rw [htype] at hother
            cases hother
            exact ⟨id, rfl, hinstance⟩⟩

/-- What a combination binds an alias to is something that the alias may stand for. -/
theorem mayStandFor_of_chosen (hplain : s.IsPlain) (hnames : a.names.Perm s.aliases)
    {r : Replacement} (hdefinition : r.definition ∈ s.definitions)
    (hexpression : expressionFor? s.aliases ((s.condition?.map conjuncts).getD []) r.definition =
      some r.expression) {c : Value}
    (hc : Chosen ev ev.value (env.unbindAliases s.aliases) a r c) :
    MayStandFor ev (s.under env a) r.definition c := by
  obtain ⟨before, w, hbegins, hw, hcandidate⟩ := hc
  have hnodup : (Bindings.names before).Nodup :=
    (hbegins.sublist.map Prod.fst).nodup (hnames.nodup_iff.mpr hplain.nodup)
  have hextends := under_extends env hplain hnames hnodup hbegins.subset
  rw [mem_candidates_iff] at hcandidate
  rcases hplain.declared r.definition hdefinition with ⟨n, type, hrange⟩ | ⟨path, x, ws, hpath, ht⟩
  · rw [hrange] at hcandidate ⊢
    rcases hcandidate with ⟨-, hsuits⟩ | ⟨-, hinner, -⟩
    · obtain ⟨id, rfl, hinstance⟩ := hsuits type rfl
      exact .range rfl rfl hinstance
    · cases hinner
  · unfold expressionFor? at hexpression
    simp only [hpath, Option.some.injEq] at hexpression
    rw [← hexpression] at hw
    have hvalue := hextends.value_reference ht hw
    rcases hcandidate with ⟨hmem, hsuits⟩ | ⟨rfl, hinner, hnone⟩
    · exact .join hpath hvalue hmem hsuits
    · exact .outer hpath hvalue hinner hnone

/-- The steps that lead to an answer where the condition is not refuted at once. -/
structure Enumerated (ev : Evaluator) (env : Environment) (s : Statement) (out : List Value)
    (ordered : List Replacement) (found : List (Bindings Value)) : Prop where
  replaces : ∀ r ∈ ordered, r.definition ∈ s.definitions ∧
    expressionFor? s.aliases ((s.condition?.map conjuncts).getD []) r.definition =
      some r.expression
  names : (ordered.map Replacement.name).Perm s.aliases
  combine : (ordered.foldlM (fun vs r =>
    extend ev ev.value (env.unbindAliases s.aliases) r 0 vs) [[]]).outcome = .ok found
  project : (rows ev ev.value (env.unbindAliases s.aliases) s found).outcome = .ok out

/-- The answer comes down to the rows of some combinations: nothing is aggregated, the condition
is not refuted at once, and the aliases have values. -/
structure Query.Statement.Reaches (s : Statement) (ev : Evaluator) (env : Environment)
    (found : List (Bindings Value)) : Prop where
  plainRows : aggregates s.phrase = false
  unrefuted : (isRefuted ev ev.value (env.unbindAliases s.aliases) s.condition?).outcome = .ok false
  combined : ∃ rs, replacements s = .ok rs ∧
    (variants ev ev.value (env.unbindAliases s.aliases) rs).outcome = .ok found

theorem Query.Statement.Reaches.outcome_answer {found : List (Bindings Value)}
    (h : s.Reaches ev env found) : (answer ev ev.value env s).outcome =
      (rows ev ev.value (env.unbindAliases s.aliases) s found).outcome := by
  obtain ⟨rs, hrs, hfound⟩ := h.combined
  rw [answer, if_neg (by rw [h.plainRows]; simp), Traced.outcome_bind, h.unrefuted]
  show (Traced.lift (replacements s) >>= _).outcome = _
  rw [Traced.outcome_bind, hrs]
  show (variants ev ev.value (env.unbindAliases s.aliases) rs >>= _).outcome = _
  rw [Traced.outcome_bind, hfound]
  rfl

theorem Query.Statement.Reaches.enumerated {out : List Value} {found : List (Bindings Value)}
    (h : s.Reaches ev env found)
    (hrows : (rows ev ev.value (env.unbindAliases s.aliases) s found).outcome = .ok out) :
    ∃ ordered, Enumerated ev env s out ordered found := by
  obtain ⟨rs, hrs, hfound⟩ := h.combined
  obtain ⟨hdefinitions, hexpressions⟩ := replacements_eq_ok hrs
  obtain ⟨made, hmade, hstuck⟩ := Traced.outcome_bind_eq_ok.mp hfound
  split at hstuck
  · rename_i hempty
    cases hstuck
    have hperm := arrange_perm [] rs
    rw [List.isEmpty_iff.mp hempty, List.append_nil] at hperm
    have haliases : rs.map Replacement.name = s.aliases := by
      rw [Statement.aliases, ← hdefinitions, List.map_map]
      rfl
    refine ⟨_, fun r hr => ?_, haliases ▸ hperm.map Replacement.name, hmade, hrows⟩
    have hr := hperm.mem_iff.mp hr
    exact ⟨hdefinitions ▸ List.mem_map_of_mem hr, hexpressions r hr⟩
  · cases hstuck

/-- An answer without rows at once, or the rows of some combinations. -/
theorem answer_cases {out : List Value} (h : (answer ev ev.value env s).outcome = .ok out) :
    ((isRefuted ev ev.value (env.unbindAliases s.aliases) s.condition?).outcome = .ok true ∧
      out = []) ∨ ∃ found, s.Reaches ev env found ∧
        (rows ev ev.value (env.unbindAliases s.aliases) s found).outcome = .ok out := by
  unfold answer at h
  split at h
  · cases h
  · rename_i haggregates
    obtain ⟨refuted, hrefuted, h⟩ := Traced.outcome_bind_eq_ok.mp h
    cases refuted with
    | true =>
        cases h
        exact Or.inl ⟨hrefuted, rfl⟩
    | false =>
        obtain ⟨rs, hrs, h⟩ := Traced.outcome_bind_eq_ok.mp h
        obtain ⟨found, hfound, h⟩ := Traced.outcome_bind_eq_ok.mp h
        exact Or.inr ⟨found, ⟨by simpa using haggregates, hrefuted, rs, hrs, hfound⟩, h⟩

theorem answer_eq_ok {out : List Value} (h : (answer ev ev.value env s).outcome = .ok out) :
    ((isRefuted ev ev.value (env.unbindAliases s.aliases) s.condition?).outcome = .ok true ∧
      out = []) ∨ ∃ ordered found, Enumerated ev env s out ordered found := by
  obtain hrefuted | ⟨found, hreaches, hrows⟩ := answer_cases h
  · exact Or.inl hrefuted
  · obtain ⟨ordered, hfound⟩ := hreaches.enumerated hrows
    exact Or.inr ⟨ordered, found, hfound⟩

/-- A condition that is false without the aliases is true for no assignment. -/
theorem not_satisfies_of_refuted (hplain : s.IsPlain)
    (h : (isRefuted ev ev.value (env.unbindAliases s.aliases) s.condition?).outcome = .ok true) :
    ¬s.Satisfies ev env a := by
  intro ha
  cases hcondition : s.condition? with
  | none =>
      rw [hcondition] at h
      cases h
  | some condition =>
      rw [hcondition] at h
      obtain ⟨b, hb, hfalse⟩ := Traced.outcome_bind_eq_ok.mp h
      have hextends : (env.unbindAliases s.aliases).Extends (s.under env a) :=
        @under_extends s env [] a hplain ha.names List.nodup_nil (List.nil_subset a)
      have hkept := Evaluator.truth_keeps hextends (hplain.condition condition hcondition)
        b _ hb (ha.holds condition hcondition)
      obtain rfl : b = some false := by
        rcases b with _ | _ | _ <;> first | rfl | cases hfalse
      cases hkept false rfl

namespace Enumerated

variable {out : List Value} {ordered : List Replacement} {found : List (Bindings Value)}

theorem names_of_mem (h : Enumerated ev env s out ordered found) {v : Bindings Value}
    (hv : v ∈ found) : v.names.Perm s.aliases := by
  rw [(chosen_of_mem h.combine hv).1]
  exact h.names

/-- A combination that is accepted is an assignment that satisfies the condition. -/
theorem satisfies (h : Enumerated ev env s out ordered found) (hplain : s.IsPlain)
    {v : Bindings Value} (hv : v ∈ found)
    (haccepted : (isAccepted ev ev.value (s.under env v) s.condition?).outcome = .ok true) :
    s.Satisfies ev env v where
  names := h.names_of_mem hv
  stands d hd c hc := by
    obtain ⟨r, hr, hname, hchosen⟩ := (chosen_of_mem h.combine hv).2 _ c hc
    obtain ⟨hdefinition, hexpression⟩ := h.replaces r hr
    obtain rfl : r.definition = d := List.inj_on_of_nodup_map hplain.nodup hdefinition hd hname
    exact mayStandFor_of_chosen hplain (h.names_of_mem hv) hdefinition hexpression hchosen
  holds condition hcondition := (isAccepted_eq_ok haccepted).mp rfl condition hcondition

/-- Every row is made by an assignment that satisfies the condition. -/
theorem exists_satisfies (h : Enumerated ev env s out ordered found) (hplain : s.IsPlain)
    {x : Value} (hx : x ∈ out) : ∃ a, s.Satisfies ev env a ∧ s.Selects ev env a x := by
  obtain ⟨v, hv, us, haccepted, hus, rfl⟩ := (rows_eq_ok h.project).2 x hx
  exact ⟨v, h.satisfies hplain hv haccepted, us, project_eq_ok.mp hus, rfl⟩

/-- A satisfying assignment is one of the combinations, up to the order of the aliases. -/
theorem exists_found (h : Enumerated ev env s out ordered found)
    (hworld : ∀ a b, ev.world.sameObject a b → a = b) (hplain : s.IsPlain)
    (ha : s.Satisfies ev env a) : ∃ v ∈ found, v ⊆ a ∧ a ⊆ v := by
  obtain ⟨v, hv, hsub⟩ := exists_combination h.combine (a := a) fun r hr => by
    obtain ⟨hdefinition, hexpression⟩ := h.replaces r hr
    have hname : r.name ∈ a.names := ha.names.mem_iff.mpr (List.mem_map_of_mem hdefinition)
    obtain ⟨⟨n, c⟩, hc, hn⟩ := List.mem_map.mp hname
    obtain rfl : n = r.name := hn
    refine ⟨c, hc, fun before hbefore hbegins w hw => ?_⟩
    exact candidate_of_satisfies hworld hplain ha hdefinition hexpression hc hbefore
      (hbegins.sublist.nodup (h.names.nodup_iff.mpr hplain.nodup)) hw
  refine ⟨v, hv, hsub, ?_⟩
  rintro ⟨n, c⟩ hc
  have hn : n ∈ v.names := (h.names_of_mem hv).mem_iff.mpr
    (ha.names.mem_iff.mp (List.mem_map_of_mem hc))
  obtain ⟨⟨m, b⟩, hb, rfl⟩ := List.mem_map.mp hn
  rwa [List.inj_on_of_nodup_map (ha.names.nodup_iff.mpr hplain.nodup) hc (hsub hb) rfl]

/-- Every satisfying assignment makes a row, and it is among the rows. -/
theorem exists_row (h : Enumerated ev env s out ordered found)
    (hworld : ∀ a b, ev.world.sameObject a b → a = b) (hplain : s.IsPlain)
    (ha : s.Satisfies ev env a) : ∃ x ∈ out, s.Selects ev env a x := by
  obtain ⟨v, hv, hsub, hback⟩ := h.exists_found hworld hplain ha
  have hnames := h.names_of_mem hv
  have hto := under_extends env hplain ha.names (hnames.nodup_iff.mpr hplain.nodup) hsub
  have hfrom := under_extends env hplain hnames (ha.names.nodup_iff.mpr hplain.nodup) hback
  obtain ⟨b, hb, hrow⟩ := (rows_eq_ok h.project).1 v hv
  have haccepted : b = true := (isAccepted_eq_ok hb).mpr fun condition hcondition => by
    rw [hcondition] at hb
    obtain ⟨c, hc, -⟩ := Traced.outcome_bind_eq_ok.mp hb
    have hkept := Evaluator.truth_keeps hfrom (hplain.condition condition hcondition)
      _ c (ha.holds condition hcondition) hc
    exact hkept true rfl ▸ hc
  obtain ⟨us, hus, hmem⟩ := hrow haccepted
  refine ⟨row us, hmem, us, ?_, rfl⟩
  exact ((List.forall₂_and_left _ _).mpr ⟨hplain.selected, project_eq_ok.mp hus⟩).imp
    fun path w ⟨⟨_, _, hpath⟩, hw⟩ => hto.value_reference hpath hw

end Enumerated

theorem Query.Statement.Selects.unique {v w : Value} (hv : s.Selects ev env a v)
    (hw : s.Selects ev env a w) : v = w := by
  obtain ⟨vs, hvs, rfl⟩ := hv
  obtain ⟨ws, hws, rfl⟩ := hw
  have heq := (project_eq_ok.mpr hvs).symm.trans (project_eq_ok.mpr hws)
  rw [Except.ok.inj heq]

end Answers

/-- Where equal objects are one object, the rows that enumeration finds are those that the
satisfying assignments make, no more and no fewer.  So an empty answer means that no
assignment satisfies the condition, not only that none was tried. -/
theorem answer_is_exact (ev : Evaluator) (hworld : ∀ a b, ev.world.sameObject a b → a = b)
    {source : String} {t : Phrase} (ht : Phrase.ofText source = .ok t) {u : Phrase}
    (hu : u ∈ t.nodes ∨ u ∈ t.normalize.nodes) {scope : List AliasDefinition} {s : Statement}
    (hs : Statement.ofSubselect (some ev.mapping.model) scope u = .ok s) (env : Environment)
    {rows : List Value} (h : (answer ev ev.value env s).outcome = .ok rows) :
    (∀ v, v ∈ rows ↔ ∃ a, s.Satisfies ev env a ∧ s.Selects ev env a v) ∧
      (rows = [] ↔ ∀ a, ¬s.Satisfies ev env a) := by
  have hlabel : u.label = .subselect := by
    by_contra hne
    rw [Statement.ofSubselect, if_neg hne] at hs
    cases hs
  have hplain := Statement.isPlain_of_ofSubselect
    (sound_of_mem_nodes ht hu u (mem_nodes_self u) hlabel) hs
  have hexact : (∀ v ∈ rows, ∃ a, s.Satisfies ev env a ∧ s.Selects ev env a v) ∧
      ∀ a, s.Satisfies ev env a → ∃ v ∈ rows, s.Selects ev env a v := by
    rcases answer_eq_ok h with ⟨hrefuted, rfl⟩ | ⟨ordered, found, hfound⟩
    · exact ⟨by simp, fun a ha => absurd ha (not_satisfies_of_refuted hplain hrefuted)⟩
    · exact ⟨fun v hv => hfound.exists_satisfies hplain hv,
        fun a ha => hfound.exists_row hworld hplain ha⟩
  refine ⟨fun v => ⟨hexact.1 v, ?_⟩, ?_, fun hnone => ?_⟩
  · rintro ⟨a, ha, hselects⟩
    obtain ⟨w, hw, hselected⟩ := hexact.2 a ha
    rwa [hselects.unique hselected]
  · rintro rfl a ha
    obtain ⟨w, hw, -⟩ := hexact.2 a ha
    cases hw
  · refine List.eq_nil_iff_forall_not_mem.mpr fun v hv => ?_
    obtain ⟨a, ha, -⟩ := hexact.1 v hv
    exact hnone a ha

/-- Objects without identities are equal to nothing else. -/
theorem World.eq_of_sameObject {w : World} (hw : ∀ o ∈ w.objects, o.idProperty? = none)
    {a b : ObjectId} (h : w.sameObject a b) : a = b := by
  have hnone : w.identity? a = none := by
    unfold identity? object?
    cases ho : w.objects[a]? with
    | none => rfl
    | some o => simp [Object.identity?, hw o (List.mem_of_getElem? ho)]
  unfold sameObject sameObjectWithin at h
  simpa [hnone] using h

/-- The folder of a document, found through the equality that names it. -/
theorem answer_is_exact_folder :
    let ev : Evaluator :=
      { world := ⟨[⟨"Folder", none, []⟩, ⟨"Document", none, [("folder", .entity 0)]⟩]⟩
        mapping := { classes := [{ name := "Folder" }, { name := "Document", properties :=
          [⟨"folder", .entity "Folder"⟩] }] } }
    let env : Environment := { aliases := [("d", .entity 1)], now := default }
    ∃ t u s, Phrase.ofText
        "SELECT d FROM Document d WHERE EXISTS (SELECT f FROM Folder f WHERE f = d.folder)" = .ok t ∧
      u ∈ t.nodes ∧ Statement.ofSubselect (some ev.mapping.model) (env.scope ev.world) u = .ok s ∧
      (answer ev ev.value env s).outcome = .ok [.entity 0] ∧
      ∃ a, s.Satisfies ev env a ∧ s.Selects ev env a (.entity 0) := by
  intro ev env
  have hfound : (Phrase.ofText
      "SELECT d FROM Document d WHERE EXISTS (SELECT f FROM Folder f WHERE f = d.folder)").toOption.any
      fun t => t.nodes.any fun u => (Statement.ofSubselect (some ev.mapping.model)
        (env.scope ev.world) u).toOption.any fun s =>
          (answer ev ev.value env s).outcome.toOption.any fun rows =>
            rows.map Value.entity? == [some 0] := by decide +kernel
  obtain ⟨t, ht, hfound⟩ := Query.Scope.ok_of_any hfound
  obtain ⟨u, hu, hfound⟩ := List.any_eq_true.mp hfound
  obtain ⟨s, hs, hfound⟩ := Query.Scope.ok_of_any hfound
  obtain ⟨rows, hrows, hfound⟩ := Query.Scope.ok_of_any hfound
  obtain ⟨v, others, rfl, hv, hothers⟩ := List.map_eq_cons_iff.mp (beq_iff_eq.mp hfound)
  obtain rfl := List.map_eq_nil_iff.mp hothers
  obtain rfl : v = .entity 0 := by
    cases v <;> cases hv
    rfl
  have hworld : ∀ a b, ev.world.sameObject a b → a = b := fun a b =>
    World.eq_of_sameObject (by decide)
  exact ⟨t, u, s, ht, hu, hs, hrows,
    ((answer_is_exact ev hworld ht (Or.inl hu) hs env hrows).1 _).mp (by simp)⟩

end RowGuard
