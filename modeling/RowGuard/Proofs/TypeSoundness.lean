import RowGuard.Proofs.TypedPaths

/-!
# Typed conditions

A typed phrase never takes an object for one that does not fit.  The induction is on
the nesting of subselects, and its invariant is the environment: every alias stands
for null or for an object of the type that the check had for it.  A subselect is
checked again where it is evaluated, in the scope of what is bound there, and that
check may know other types for its joins.  It keeps their names and paths, though, and
the values that a join path leads to suit the type from the first check as they are.

So the rules of a policy are safe if each is anchored.  Without that they are not: the
check knows no type for an alias that is joined over a plain property, and it lets
every path behind such an alias pass.
-/

namespace RowGuard

open Query (AliasDefinition Label Phrase Statement TypeModel)
open Query.Phrase
open Query.Scope
open Enumeration

/-! ## Combinations -/

section Combinations

variable {ev : Evaluator} {evaluate : Environment → Phrase → Eval Value} {outer : Environment}
  {P : Bindings Value → Prop}

/-- Where a replacement is evaluated safely and each of its candidates keeps a property of
combinations, extending combinations by it is safe and keeps the property. -/
theorem lands_extend {r : Replacement} (h : ∀ v, P v → Traced.Lands
      (fun w? => ∀ w, w? = some w → ∀ c ∈ candidates ev r.definition w,
        P (v ++ [(r.definition.name, c)]))
      (evaluate (outer.bindAliases v) r.expression).run)
    (count : Nat) {vs : List (Bindings Value)} (hvs : ∀ v ∈ vs, P v) :
    Traced.Lands (fun out => ∀ v ∈ out, P v) (extend ev evaluate outer r count vs) := by
  induction vs generalizing count with
  | nil => exact hvs
  | cons v vs ih =>
      obtain ⟨hv, hvs⟩ := List.forall_mem_cons.mp hvs
      rw [extend]
      apply Traced.Lands.bind (h v hv)
      intro w? hw
      cases w? with
      | none => rfl
      | some w =>
          simp only
          split
          · rfl
          · apply Traced.Lands.bind (ih _ hvs)
            intro others hothers u hu
            rcases List.mem_append.mp hu with hu | hu
            · obtain ⟨c, hc, rfl⟩ := List.mem_map.mp hu
              exact hw w rfl c hc
            · exact hothers u hu

theorem lands_variants {rs : List Replacement} (hnil : P []) (h : ∀ r ∈ rs, ∀ v, P v →
      Traced.Lands (fun w? => ∀ w, w? = some w → ∀ c ∈ candidates ev r.definition w,
        P (v ++ [(r.definition.name, c)])) (evaluate (outer.bindAliases v) r.expression).run) :
    Traced.Lands (fun out => ∀ v ∈ out, P v) (variants ev evaluate outer rs) := by
  have hordered : ∀ r ∈ (arrange [] rs).1, r ∈ rs := fun r hr =>
    (arrange_perm [] rs).mem_iff.mp (List.mem_append_left _ hr)
  unfold variants
  apply Traced.Lands.bind (P := fun out => ∀ v ∈ out, P v)
  · apply Traced.Lands.foldlM (by simpa using hnil)
    intro vs hvs r hr
    exact lands_extend (h r (hordered r hr)) 0 hvs
  · intro found hfound
    split
    · exact hfound
    · rfl

theorem safe_holds {env : Environment} {condition : Phrase}
    (h : Eval.Safe (evaluate env condition)) :
    Traced.Safe (holds ev evaluate env condition) :=
  Traced.Lands.bind h fun v? _ => Operation.safe_truth v?

theorem safe_isAccepted {env : Environment} {condition? : Option Phrase}
    (h : ∀ condition, condition? = some condition → Eval.Safe (evaluate env condition)) :
    Traced.Safe (isAccepted ev evaluate env condition?) := by
  cases condition? with
  | none => exact trivial
  | some condition =>
      apply Traced.Lands.bind (safe_holds (h condition rfl))
      intro b? _
      cases b? with
      | none => rfl
      | some b => exact trivial

theorem safe_isRefuted {condition? : Option Phrase}
    (h : ∀ condition, condition? = some condition → Eval.Safe (evaluate outer condition)) :
    Traced.Safe (isRefuted ev evaluate outer condition?) := by
  cases condition? with
  | none => exact trivial
  | some condition => exact Traced.Lands.bind (safe_holds (h condition rfl)) fun _ _ => trivial

theorem safe_project {env : Environment} {paths : List String}
    (h : ∀ path ∈ paths, Eval.Safe (evaluate env (ofDotted path))) :
    Traced.Safe (project evaluate env paths) := by
  induction paths with
  | nil => exact trivial
  | cons path paths ih =>
      obtain ⟨hpath, hpaths⟩ := List.forall_mem_cons.mp h
      apply Traced.Lands.bind hpath
      intro v? _
      cases v? with
      | none => rfl
      | some v => exact Traced.Lands.bind (ih hpaths) fun _ _ => trivial

theorem safe_rows {s : Statement} {vs : List (Bindings Value)}
    (hcondition : ∀ v ∈ vs, ∀ condition, s.condition? = some condition →
      Eval.Safe (evaluate (outer.bindAliases v) condition))
    (hselected : ∀ v ∈ vs, ∀ path ∈ s.selectedPaths,
      Eval.Safe (evaluate (outer.bindAliases v) (ofDotted path))) :
    Traced.Safe (rows ev evaluate outer s vs) := by
  induction vs with
  | nil => exact trivial
  | cons v vs ih =>
      obtain ⟨hc, hcondition⟩ := List.forall_mem_cons.mp hcondition
      obtain ⟨hs, hselected⟩ := List.forall_mem_cons.mp hselected
      have hrest := ih hcondition hselected
      apply Traced.Lands.bind (safe_isAccepted hc)
      intro b _
      split
      · apply Traced.Lands.bind (safe_project hs)
        intro us _
        exact Traced.Lands.bind hrest fun _ _ => trivial
      · exact hrest

theorem safe_replacements (s : Statement) : Outcome.Safe (replacements s) := by
  apply Outcome.Safe.mapM
  intro d _
  unfold replacement
  split
  · exact trivial
  · rfl

theorem safe_firstDecision {answer : Strategy → Traced (List Value)} {strategies : List Strategy}
    (h : ∀ s ∈ strategies, Traced.Safe (answer s)) :
    Traced.Safe (Evaluator.firstDecision answer strategies) := by
  induction strategies with
  | nil => exact trivial
  | cons s rest ih =>
      obtain ⟨hs, hrest⟩ := List.forall_mem_cons.mp h
      unfold Traced.Safe Traced.Lands at hs ⊢
      cases houtcome : (answer s).outcome with
      | ok rows =>
          rw [Evaluator.firstDecision_of_ok houtcome]
          exact trivial
      | error e =>
          cases hlight : e.isUndecidable with
          | true =>
              rw [Evaluator.firstDecision_of_undecidable houtcome hlight]
              exact ih hrest
          | false =>
              rw [Evaluator.firstDecision_of_heavy houtcome hlight]
              rw [houtcome] at hs
              exact hs

end Combinations

/-! ## Subselects -/

mutual

/-- The conjuncts of a typed condition are typed. -/
theorem Typed.conjuncts {model : TypeModel} {scope : List AliasDefinition} :
    ∀ {t : Phrase}, Typed model scope t → ∀ u ∈ Enumeration.conjuncts t, Typed model scope u
  | .node l cs s, h => by
      rcases conjuncts_node l cs s with hself | ⟨hl, hall⟩
      · rw [hself]
        intro u hu
        exact List.mem_singleton.mp hu ▸ h
      · rw [hall]
        have hcompound : l.isCompound := by
          rcases hl with rfl | ⟨rfl, -⟩ <;> rfl
        exact conjunctsAll_typed (h.children hcompound)

theorem conjunctsAll_typed {model : TypeModel} {scope : List AliasDefinition} :
    ∀ {ts : List Phrase}, (∀ t ∈ ts, Typed model scope t) →
      ∀ u ∈ Enumeration.conjunctsAll ts, Typed model scope u
  | [], _ => by simp [conjunctsAll]
  | t :: ts, h => by
      obtain ⟨ht, hts⟩ := List.forall_mem_cons.mp h
      intro u hu
      rcases List.mem_append.mp hu with hu | hu
      · exact ht.conjuncts u hu
      · exact conjunctsAll_typed hts u hu

end

theorem Typed.equated {model : TypeModel} {scope : List AliasDefinition} {name : String}
    {aliases : List String} {t e : Phrase} (ht : Typed model scope t)
    (he : equated? name aliases t = some e) : Typed model scope e := by
  obtain ⟨left, right, s, rfl, hside⟩ := exists_of_equated he
  have hchildren := ht.children rfl
  rcases hside with ⟨-, rfl⟩ | ⟨-, rfl⟩
  · exact hchildren _ (by simp)
  · exact hchildren _ (by simp)

/-- What is known of a typed subselect that has been checked where it is evaluated: its
definitions are those that were typed, up to the types of its joins. -/
structure TypedSubselect (model : TypeModel) (scope ds : List AliasDefinition) (s : Statement) :
    Prop where
  aliases : s.aliases = names ds
  nodup : (names ds).Nodup
  definitions : ∀ d ∈ s.definitions, ∃ e ∈ ds, Alike e d ∧ TypedDefinition model (scope ++ ds) e
  condition : ∀ condition, s.condition? = some condition → Typed model (scope ++ ds) condition
  selected : ∀ path ∈ s.selectedPaths, ∃ x ws type?, path = Text.Dotted.join (x :: ws) ∧
    (∀ w ∈ x :: ws, IsWord w) ∧ Tells model (scope ++ ds) x ws type?

theorem Query.Scope.names_of_alike {ds ds' : List AliasDefinition}
    (h : List.Forall₂ Alike ds ds') : names ds = names ds' := by
  induction h with
  | nil => rfl
  | cons h _ ih =>
      simp only [names, List.map_cons] at ih ⊢
      rw [h.name, ih]

theorem exists_typedSubselect {m : Mapping} {scope scope' : List AliasDefinition} {t : Phrase}
    {s : Statement} (ht : Typed m.model scope t)
    (hs : Statement.ofSubselect (some m.model) scope' t = .ok s) :
    ∃ ds, TypedSubselect m.model scope ds s := by
  have hlabel := Statement.label_of_ofSubselect hs
  cases ht with
  | reference href _ =>
      rcases href.label_cases with hl | hl <;> rw [hl] at hlabel <;> cases hlabel
  | leaf _ hl => cases hlabel; cases hl
  | compound _ hcompound _ => cases hlabel; cases hcompound
  | @subselect _ ds cs items rest distinct s₁ s₂ s₃ hwell hnormal hdeclared hdefinitions htyped =>
      have hnodup := (Statement.isPlain_of_ofSubselect hwell hs).nodup
      rw [Statement.ofSubselect, if_pos hlabel, hnormal.normalize_eq] at hs
      obtain ⟨ds', hdeclared', hs⟩ := ok_of_bind hs
      obtain ⟨subselects, -, hs⟩ := ok_of_bind hs
      have hjoins : JoinsWithin (fun _ => True) (rangeAliases items) (joinsOf items) := by
        cases hwell with
        | reference href _ => cases href
        | subselect _ _ _ _ _ hjoins => exact hjoins
        | compound _ hcompound => cases hcompound
      have halike := alike_declarations hjoins hdeclared hdeclared'
      cases hs
      have hnames : names ds = names ds' := names_of_alike halike
      refine ⟨ds, hnames.symm, hnames ▸ hnodup, fun d hd => ?_, fun condition hcondition => ?_,
        fun path hpath => ?_⟩
      · obtain ⟨e, he, hsame⟩ := exists_of_forall₂ (List.Forall₂.flip halike) hd
        exact ⟨e, he, hsame, hdefinitions e he⟩
      · obtain ⟨clause, hclause, hhead⟩ := Option.bind_eq_some_iff.mp hcondition
        have hfound : rest.find? (fun c => c.label = .whereClause) = some clause := hclause
        have hwhere : clause.label = .whereClause := by simpa using List.find?_some hfound
        have hmem := htyped clause (Or.inr (List.mem_of_find?_eq_some hfound))
        obtain ⟨l, us, span⟩ := clause
        cases hwhere
        exact hmem.children rfl condition (List.mem_of_head? hhead)
      · have hselected : path ∈ selectedPathsAll cs := hpath
        obtain ⟨item, hitem, hpath⟩ := mem_selectedPathsAll.mp hselected
        obtain ⟨u, hu, htext⟩ := mem_selectedPaths.mp hpath
        exact ((htyped item (Or.inl hitem)).of_exposes hu).isReference htext

section Answers

variable {ev : Evaluator} {evaluate : Environment → Phrase → Eval Value}
  {scope ds : List AliasDefinition} {env : Environment} {s : Statement}

/-- What evaluating expressions is good for: references lead where their words do, and typed
phrases are safe. -/
structure EvaluatesSafely (ev : Evaluator) (evaluate : Environment → Phrase → Eval Value) :
    Prop where
  reference : ∀ {env : Environment} {t : Phrase} {x : String} {ws : List String},
    t.IsReference x ws → evaluate env t = Eval.ofOutcome (Expression.referenceValue ev env x ws)
  typed : ∀ {scope : List AliasDefinition} {env : Environment} {t : Phrase},
    Typed ev.mapping.model scope t → env.Respects ev scope → Eval.Safe (evaluate env t)

variable (hconforms : ev.mapping.Conforms ev.world) (hkeeps : ev.mapping.KeepsProperties)
include hconforms hkeeps

/-- What an alias is replaced by has only candidates that suit the type of the alias. -/
theorem lands_replacement (hevaluate : EvaluatesSafely ev evaluate)
    (hs : TypedSubselect ev.mapping.model scope ds s) {r : Replacement}
    (hdefinition : r.definition ∈ s.definitions)
    (hexpression : expressionFor? s.aliases ((s.condition?.map conjuncts).getD []) r.definition =
      some r.expression) (henv : env.Respects ev (scope ++ ds)) :
    Traced.Lands (fun w? => ∀ w, w? = some w → ∀ c ∈ candidates ev r.definition w,
      (env.bindAlias r.definition.name c).Respects ev (scope ++ ds))
      (evaluate env r.expression).run := by
  obtain ⟨d, hd, halike, htyped⟩ := hs.definitions _ hdefinition
  have hfind : find? (scope ++ ds) r.definition.name = some d :=
    halike.name ▸ find?_of_mem hs.nodup hd
  unfold expressionFor? at hexpression
  cases htyped with
  | range a type =>
      have hrange : AliasDefinition.range a type = r.definition := halike.range rfl
      rw [← hrange] at hexpression
      obtain ⟨t, ht, he⟩ := List.mem_filterMap.mp (mem_of_firstLeast hexpression)
      have htyped : Typed ev.mapping.model (scope ++ ds) t := by
        cases hcondition : s.condition? with
        | none =>
            rw [hcondition] at ht
            cases ht
        | some condition =>
            rw [hcondition] at ht
            exact (hs.condition condition hcondition).conjuncts t ht
      apply Outcome.Safe.lands (hevaluate.typed (htyped.equated he) henv)
      rintro w? - w - c hc
      apply henv.bindAlias hfind
      rw [hrange]
      rcases mem_candidates_iff.mp hc with ⟨-, hsuits⟩ | ⟨hnull, -, -⟩
      · exact Or.inr hsuits
      · exact Or.inl hnull
  | join hpath hwords htells =>
      rw [← halike.joinPath, hpath] at hexpression
      rw [← Option.some.inj hexpression, hevaluate.reference (isReference_ofDotted hwords)]
      apply (lands_reference hconforms hkeeps henv htells).mono
      intro w? hw w hsome c hc
      apply henv.bindAlias hfind
      rcases mem_candidates_iff.mp hc with ⟨hmem, -⟩ | ⟨hnull, -, -⟩
      · exact Or.inr (hw w hsome c hmem)
      · exact Or.inl hnull

theorem safe_answer (hevaluate : EvaluatesSafely ev evaluate)
    (hs : TypedSubselect ev.mapping.model scope ds s) (henv : env.Respects ev scope) :
    Traced.Safe (answer ev evaluate env s) := by
  have houter : (env.unbindAliases s.aliases).Respects ev (scope ++ ds) :=
    hs.aliases ▸ henv.unbind
  unfold answer
  split
  · rfl
  apply Traced.Lands.bind (safe_isRefuted fun condition hcondition =>
    hevaluate.typed (hs.condition condition hcondition) houter)
  intro refuted _
  split
  · exact trivial
  have hreplacements : Traced.Lands (fun rs => replacements s = .ok rs)
      (Traced.lift (replacements s)) := (safe_replacements s).lands fun _ h => h
  apply Traced.Lands.bind hreplacements
  intro rs hrs
  obtain ⟨hdefinitions, hexpressions⟩ := replacements_eq_ok hrs
  apply Traced.Lands.bind (lands_variants (P := fun v =>
    ((env.unbindAliases s.aliases).bindAliases v).Respects ev (scope ++ ds)) houter ?_)
  · intro found hfound
    apply safe_rows
    · exact fun v hv condition hcondition =>
        hevaluate.typed (hs.condition condition hcondition) (hfound v hv)
    · intro v hv path hpath
      obtain ⟨x, ws, type?, rfl, hwords, htells⟩ := hs.selected path hpath
      rw [hevaluate.reference (isReference_ofDotted hwords)]
      exact (lands_reference hconforms hkeeps (hfound v hv) htells).mono fun _ _ => trivial
  · intro r hr v hv
    have hdefinition : r.definition ∈ s.definitions := hdefinitions ▸ List.mem_map_of_mem hr
    apply (lands_replacement hconforms hkeeps hevaluate hs hdefinition (hexpressions r hr) hv).mono
    intro w? hw w hsome c hc
    have hbound : (env.unbindAliases s.aliases).bindAliases (v ++ [(r.definition.name, c)]) =
        ((env.unbindAliases s.aliases).bindAliases v).bindAlias r.definition.name c := by
      simp [Environment.bindAliases, Environment.bindAlias, Bindings.bindAll]
    rw [hbound]
    exact hw w hsome c hc

theorem safe_subselect (hsimple : ev.strategies = [.simple])
    (hevaluate : EvaluatesSafely ev evaluate) {t : Phrase} (ht : Typed ev.mapping.model scope t)
    (henv : env.Respects ev scope) : Eval.Safe (ev.subselect evaluate env t) := by
  cases hchecked : Statement.ofSubselect (some ev.mapping.model) (env.scope ev.world) t with
  | error e =>
      rw [Evaluator.subselect_of_error hchecked]
      split
      · exact trivial
      · rfl
  | ok s =>
      obtain ⟨ds, hs⟩ := exists_typedSubselect ht hchecked
      rw [Evaluator.subselect_of_ok hchecked, hsimple]
      refine Eval.Safe.bind (safe_firstDecision fun strategy hstrategy => ?_) fun _ => trivial
      rw [List.mem_singleton.mp hstrategy]
      exact safe_answer hconforms hkeeps hevaluate hs henv

/-! ## Expressions -/

theorem Expression.safe_value {sub : Phrase → Eval Value} {t : Phrase}
    (ht : Typed ev.mapping.model scope t) (henv : env.Respects ev scope)
    (hsub : ∀ u, Typed ev.mapping.model scope u → Eval.Safe (sub u)) :
    Eval.Safe (value ev sub env t) := by
  induction ht with
  | reference href htells =>
      rw [value_reference ev sub env href]
      exact (lands_reference hconforms hkeeps henv htells).mono fun _ _ => trivial
  | leaf s hl =>
      obtain ⟨outcome, hterminal, hvalue⟩ := value_leaf hl env s
      rw [hvalue]
      exact safe_terminal hterminal
  | subselect hwell hnormal hdeclared hdefinitions htyped _ =>
      rw [value_subselect]
      exact hsub _ (.subselect hwell hnormal hdeclared hdefinitions htyped)
  | compound s hcompound _ ih => exact safe_node hcompound (fun t ht => ih t ht henv hsub) s

/-- Typed phrases are safe, whatever nesting is allowed for. -/
theorem Evaluator.evaluatesSafely (hsimple : ev.strategies = [.simple]) (n : Nat) :
    EvaluatesSafely ev (ev.valueAt n) := by
  induction n with
  | zero =>
      refine ⟨fun ht => valueAt_reference 0 _ ht, fun ht henv => ?_⟩
      exact Expression.safe_value hconforms hkeeps ht henv fun _ _ => trivial
  | succ n ih =>
      refine ⟨fun ht => valueAt_reference (n + 1) _ ht, fun ht henv => ?_⟩
      exact Expression.safe_value hconforms hkeeps ht henv fun u hu =>
        safe_subselect hconforms hkeeps hsimple ih hu henv

end Answers

/-! ## Rules -/

theorem AccessRule.isNormal_condition {m : Mapping} {position : Nat} {source : String}
    {rules : List AccessRule} (h : ofText m position source = .ok rules) {r : AccessRule}
    (hr : r ∈ rules) {condition : Phrase} (hcondition : r.condition? = some condition) :
    condition.IsNormal := by
  obtain ⟨_, _, _, _, _, rest, _, -, -, hrules, -⟩ := expands_of_ofText h
  obtain ⟨c, -, found, hfound, -, -, rfl⟩ := hrules r hr
  obtain ⟨clause, hclause, hhead⟩ := Option.bind_eq_some_iff.mp (hfound.symm.trans hcondition)
  have hnormal := isNormal_of_mem_normalizeAll rest clause (List.mem_of_find?_eq_some hclause)
  obtain ⟨l, us, s⟩ := clause
  exact hnormal.child (List.mem_of_head? hhead)

/-- The condition of an expanded rule is typed where it is anchored, since it has been
checked for the class of the rule. -/
theorem AccessRule.typed_condition {m : Mapping} {position : Nat} {source : String}
    {rules : List AccessRule} (h : ofText m position source = .ok rules) {r : AccessRule}
    (hr : r ∈ rules) {condition : Phrase} (hcondition : r.condition? = some condition)
    (hanchored : anchored m.model [.range r.subject r.entityName] condition) :
    Typed m.model [.range r.subject r.entityName] condition := by
  obtain ⟨hwithin, ss, hcheck⟩ := checked_condition h hr hcondition
  exact typed_of_check hwithin (isNormal_condition h hr hcondition) hanchored hcheck

/-- Where objects are as the mapping has them, the anchored condition of a rule never takes an
object for one that does not fit, whatever else is bound beside the subject. -/
theorem AccessRule.condition_fits {ev : Evaluator} {position : Nat} {source : String}
    {rules : List AccessRule} (h : ofText ev.mapping position source = .ok rules)
    (hkeeps : ev.mapping.KeepsProperties) (hconforms : ev.mapping.Conforms ev.world)
    (hsimple : ev.strategies = [.simple]) {r : AccessRule} (hr : r ∈ rules) {condition : Phrase}
    (hcondition : r.condition? = some condition)
    (hanchored : anchored ev.mapping.model [.range r.subject r.entityName] condition)
    {env : Environment} {object : ObjectId}
    (hsubject : env.alias? r.subject = some (.entity object))
    (hobject : ev.mapping.isInstance ev.world object r.entityName) (reason : MappingFault) :
    (ev.truth env condition).outcome ≠ .error (.mapping reason) := by
  have henv : env.Respects ev [.range r.subject r.entityName] := by
    intro x d v hx hv
    obtain rfl : d = .range r.subject r.entityName :=
      List.mem_singleton.mp (List.mem_of_find?_eq_some hx)
    obtain rfl : x = r.subject := List.mem_singleton.mp (mem_names_of_find? hx)
    obtain rfl : Value.entity object = v := Option.some.inj (hsubject.symm.trans hv)
    right
    intro type htype
    cases htype
    exact ⟨object, rfl, hobject⟩
  have hsafe : Eval.Safe (ev.value env condition) :=
    (Evaluator.evaluatesSafely hconforms hkeeps hsimple condition.depth).typed
      (typed_condition h hr hcondition hanchored) henv
  have htruth : Traced.Safe (ev.truth env condition) :=
    Traced.Lands.bind hsafe fun v? _ => Operation.safe_truth v?
  intro hmisfit
  unfold Traced.Safe Traced.Lands at htruth
  rw [hmisfit] at htruth
  cases htruth

/-! ## Minutes in a binder -/

/-- Minutes that are kept in a binder. -/
def binderEvaluator : Evaluator where
  world := ⟨[
    ⟨"Document", none, [("title", .string "minutes"), ("binder", .entity 1)]⟩,
    ⟨"Document", none, [("title", .string "June"), ("parts", .collection [.entity 0])]⟩]⟩
  mapping := { classes := [{ name := "Document", properties := [⟨"title", .basic⟩,
    ⟨"binder", .entity "Document"⟩, ⟨"parts", .collection "Document"⟩] }] }
  strategies := [.simple]

theorem keepsProperties_binder : binderEvaluator.mapping.KeepsProperties :=
  Mapping.keepsProperties_of_no_parents (by decide)

theorem conforms_binder : binderEvaluator.mapping.Conforms binderEvaluator.world := by
  have htitle : binderEvaluator.mapping.propertyType? "Document" "title" = some .basic := by
    decide +kernel
  have hbinder : binderEvaluator.mapping.propertyType? "Document" "binder" =
      some (.entity "Document") := by decide +kernel
  have hparts : binderEvaluator.mapping.propertyType? "Document" "parts" =
      some (.collection "Document") := by decide +kernel
  have hobject : ∀ id, binderEvaluator.world.typeOf id = "Document" →
      binderEvaluator.mapping.IsObjectOf binderEvaluator.world "Document" (.entity id) := by
    intro id hid
    exact ⟨id, rfl, _, List.mem_filter.mpr ⟨List.mem_singleton.mpr rfl, by decide +kernel⟩, hid.symm⟩
  apply Mapping.conforms_of_objects
  intro o ho b hb type htype
  rcases List.mem_pair.mp ho with rfl | rfl
  · rcases List.mem_pair.mp hb with rfl | rfl
    · obtain rfl := Option.some.inj (htitle.symm.trans htype)
      exact ⟨rfl, by simp, by simp⟩
    · obtain rfl := Option.some.inj (hbinder.symm.trans htype)
      exact Or.inr (hobject 1 rfl)
  · rcases List.mem_pair.mp hb with rfl | rfl
    · obtain rfl := Option.some.inj (htitle.symm.trans htype)
      exact ⟨rfl, by simp, by simp⟩
    · obtain rfl := Option.some.inj (hparts.symm.trans htype)
      refine ⟨_, rfl, fun i hi => ?_⟩
      rw [List.mem_singleton.mp hi]
      exact hobject 0 rfl

/-- A rule for what lies in a binder with some minutes: the binder and its parts are reached
over paths from aliases of known types. -/
theorem AccessRule.condition_fits_binder :
    ∃ rules r condition, ofText binderEvaluator.mapping 0
        "GRANT READ ACCESS TO Document d WHERE EXISTS (SELECT x FROM Document x JOIN x.parts p
          WHERE x = d.binder AND p.title = 'minutes')" = .ok rules ∧ r ∈ rules ∧
      r.condition? = some condition ∧
      anchored binderEvaluator.mapping.model [.range r.subject r.entityName] condition ∧
      ∀ reason, (binderEvaluator.truth { aliases := [("d", .entity 0)], now := default }
        condition).outcome ≠ .error (.mapping reason) := by
  have hfound : (ofText binderEvaluator.mapping 0
      "GRANT READ ACCESS TO Document d WHERE EXISTS (SELECT x FROM Document x JOIN x.parts p
          WHERE x = d.binder AND p.title = 'minutes')").toOption.any fun rules =>
      rules.any fun r => (r.subject == "d" && r.entityName == "Document") &&
        r.condition?.any fun condition =>
          anchored binderEvaluator.mapping.model [.range r.subject r.entityName] condition := by
    decide +kernel
  obtain ⟨rules, hrules, hfound⟩ := ok_of_any hfound
  obtain ⟨r, hr, hfound⟩ := List.any_eq_true.mp hfound
  obtain ⟨hnames, hfound⟩ := Bool.and_eq_true_iff.mp hfound
  obtain ⟨hsubject, hentity⟩ := Bool.and_eq_true_iff.mp hnames
  obtain ⟨condition, hcondition, hanchored⟩ := (Option.any_eq_true _ _).mp hfound
  have hbound : Environment.alias? { aliases := [("d", .entity 0)], now := default } r.subject =
      some (.entity 0) := by
    rw [beq_iff_eq.mp hsubject]
    rfl
  have hobject : binderEvaluator.mapping.isInstance binderEvaluator.world 0 r.entityName := by
    rw [beq_iff_eq.mp hentity]
    decide +kernel
  exact ⟨rules, r, condition, hrules, hr, hcondition, hanchored,
    condition_fits hrules keepsProperties_binder conforms_binder rfl hr hcondition hanchored
      hbound hobject⟩

/-- Whether an outcome says that a path was followed through a value of some type. -/
def isNotNavigable (segment type : String) : Except Fault (Option Bool) → Bool
  | .error (.mapping (.notNavigable s t)) => s == segment && t == type
  | _ => false

theorem eq_of_isNotNavigable {segment type : String} {outcome : Except Fault (Option Bool)}
    (h : isNotNavigable segment type outcome) :
    outcome = .error (.mapping (.notNavigable segment type)) := by
  unfold isNotNavigable at h
  split at h
  · rw [Bool.and_eq_true, beq_iff_eq, beq_iff_eq] at h
    rw [h.1, h.2]
  · cases h

/-- Checking does not look at what is behind an alias for a title, and following it fails. -/
theorem AccessRule.misfit_behind_title :
    binderEvaluator.mapping.KeepsProperties ∧
    binderEvaluator.mapping.Conforms binderEvaluator.world ∧
    ∃ rules r condition, ofText binderEvaluator.mapping 0
        "GRANT READ ACCESS TO Document d WHERE EXISTS (SELECT x FROM Document x JOIN x.title t
          WHERE x = d AND t.foo = 'a')" = .ok rules ∧ r ∈ rules ∧
      r.condition? = some condition ∧ r.subject = "d" ∧
      binderEvaluator.world.typeOf 0 = r.entityName ∧
      (binderEvaluator.truth { aliases := [("d", .entity 0)], now := default }
        condition).outcome = .error (.mapping (.notNavigable "foo" "string")) := by
  have hfound : (ofText binderEvaluator.mapping 0
      "GRANT READ ACCESS TO Document d WHERE EXISTS (SELECT x FROM Document x JOIN x.title t
          WHERE x = d AND t.foo = 'a')").toOption.any fun rules =>
      rules.any fun r => (r.subject == "d" && binderEvaluator.world.typeOf 0 == r.entityName) &&
        r.condition?.any fun condition => isNotNavigable "foo" "string"
          (binderEvaluator.truth { aliases := [("d", .entity 0)], now := default }
            condition).outcome := by
    decide +kernel
  obtain ⟨rules, hrules, hfound⟩ := ok_of_any hfound
  obtain ⟨r, hr, hfound⟩ := List.any_eq_true.mp hfound
  obtain ⟨hnames, hfound⟩ := Bool.and_eq_true_iff.mp hfound
  obtain ⟨hsubject, hentity⟩ := Bool.and_eq_true_iff.mp hnames
  obtain ⟨condition, hcondition, hmisfit⟩ := (Option.any_eq_true _ _).mp hfound
  exact ⟨keepsProperties_binder, conforms_binder, rules, r, condition, hrules, hr, hcondition,
    beq_iff_eq.mp hsubject, beq_iff_eq.mp hentity, eq_of_isNotNavigable hmisfit⟩

end RowGuard
