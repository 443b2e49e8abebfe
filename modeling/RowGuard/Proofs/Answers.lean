import RowGuard.Evaluation.Evaluator
import RowGuard.Proofs.Environments

/-!
# Answers to corresponding subselects

The steps of enumerating a subselect are gone through side by side: partners
get the same candidates, so the same combinations are made, accepted and
projected.  What evaluating an expression comes to is left open; it only has to
agree wherever the environments do.
-/

namespace RowGuard

open Query (AliasDefinition Label Phrase Statement)
open Query.Phrase
open Query.Scope
open Enumeration

/-- Two ways of evaluating that agree on corresponding phrases and read references
off the environment. -/
structure EvaluatesAlike (lenient : Prop) (ev : Evaluator) (k : Link) (i j : Nat)
    (evaluate evaluate' : Environment → Phrase → Eval Value) : Prop where
  agree : ∀ {ρ : Pairs} {env env' : Environment} {t u : Phrase},
    EnvironmentsAgree lenient ev k ρ env env' → Corresponds k i j ρ t u →
      Eval.Agree lenient (evaluate env t) (evaluate' env' u)
  reference : ∀ (env : Environment) {t : Phrase} {x : String} {ws : List String},
    t.IsReference x ws → evaluate env t = Eval.ofOutcome (Expression.referenceValue ev env x ws)
  reference' : ∀ (env : Environment) {t : Phrase} {x : String} {ws : List String},
    t.IsReference x ws → evaluate' env t = Eval.ofOutcome (Expression.referenceValue ev env x ws)

/-! ## Candidates -/

section Candidates

variable {ev : Evaluator} {d d' : AliasDefinition} {v c : Value}

theorem admissible_entity {type : String} {id : ObjectId}
    (hinstance : ev.mapping.isInstance ev.world id type) :
    admissible ev (some type) [] [.entity id] = [.entity id] := by
  simp [admissible, hinstance]

/-- A fitting value gives both aliases of a pair the same candidates. -/
theorem candidates_eq (hinner : d.inner = d'.inner) (hfits : Fits ev d.type? d'.type? v) :
    candidates ev d v = candidates ev d' v := by
  unfold candidates
  rcases hfits with htypes | rfl | ⟨id, sub, sup, rfl, hsub, hsup, hid, hid'⟩
  · rw [htypes, hinner]
  · simp only [Value.items, admissible, hinner]
  · simp only [hsub, hsup, Value.items, admissible_entity hid, admissible_entity hid']

theorem fits_of_mem_candidates (hfits : Fits ev d.type? d'.type? v)
    (hmem : c ∈ candidates ev d v) : Fits ev d.type? d'.type? c := by
  rcases hfits with htypes | rfl | ⟨id, sub, sup, rfl, hsub, hsup, hid, hid'⟩
  · exact Or.inl htypes
  · simp only [candidates, Value.items, admissible] at hmem
    split at hmem
    · cases hmem
    · exact Or.inr (Or.inl (List.mem_singleton.mp hmem))
  · simp only [candidates, hsub, Value.items, admissible_entity hid] at hmem
    exact Or.inr (Or.inr ⟨id, sub, sup, List.mem_singleton.mp hmem, hsub, hsup, hid, hid'⟩)

end Candidates

/-! ## Combinations -/

section Combining

variable {lenient : Prop} {ev : Evaluator} {k : Link} {i j : Nat} {ρ : Pairs}
variable {qs : Definitions} {around around' env env' : Environment}

/-- The inner environments of a subselect: they agree, declared aliases hold only
fitting values, and all other names hold what they hold around the subselect. -/
structure InnerEnvironments (lenient : Prop) (ev : Evaluator) (k : Link) (ρ : Pairs)
    (qs : Definitions) (around env env' : Environment) : Prop where
  agree : EnvironmentsAgree lenient ev k (qs.pairs ++ ρ) env env'
  fitting : Fitting ev qs env
  outside : ∀ n, n ∉ qs.aliases → env.held n = around.held n

theorem InnerEnvironments.unbind (h : EnvironmentsAgree lenient ev k ρ around around') :
    InnerEnvironments lenient ev k ρ qs around (around.unbindAliases qs.aliases)
      (around'.unbindAliases qs.aliases') where
  agree := h.unbind
  fitting := fitting_unbind around
  outside n hn := by
    rw [Environment.held, Environment.unbindAliases, Bindings.held_unbindAll, if_neg hn]
    rfl

theorem eq_of_name_eq (hnodup : qs.aliases.Nodup) {q o : AliasDefinition × AliasDefinition}
    (hq : q ∈ qs) (ho : o ∈ qs) (hname : q.1.name = o.1.name) : q = o := by
  refine List.inj_on_of_nodup_map (f := fun q => q.1.name) ?_ hq ho hname
  simpa [Definitions.aliases, Definitions.left, Function.comp_def] using hnodup

theorem InnerEnvironments.bindVariants (hnodup : qs.aliases.Nodup)
    (honce : PairsOnce qs.Partners) {variant variant' : Bindings Value}
    (hvariants : VariantsAgree ev qs variant variant')
    (h : InnerEnvironments lenient ev k ρ qs around env env') :
    InnerEnvironments lenient ev k ρ qs around (env.bindAliases variant)
      (env'.bindAliases variant') := by
  refine ⟨h.agree.bindVariants honce hvariants, ?_, ?_⟩
  · have hall := h.fitting
    clear h
    induction hvariants generalizing env with
    | nil => exact hall
    | @cons b b' variant variant' hb _ ih =>
        obtain ⟨-, o, ho, hname, -, hfits⟩ := hb
        refine @ih (env.bindAlias b.1 b.2) fun q hq v hv => ?_
        unfold Environment.held Environment.bindAlias at hv
        by_cases hqo : b.1 = q.1.name
        · have heq := eq_of_name_eq hnodup hq ho (by rw [hname, hqo])
          subst heq
          rw [← hqo, Bindings.held_bind_self] at hv
          rcases List.mem_cons.mp hv with rfl | hv
          · exact hfits
          · exact hall q hq v (by rw [← hqo]; exact List.mem_of_mem_tail hv)
        · rw [Bindings.held_bind_of_ne _ _ hqo] at hv
          exact hall q hq v hv
  · intro n hn
    rw [← h.outside n hn]
    refine Bindings.held_bindAll_of_not_mem _ _ fun hmem => hn ?_
    obtain ⟨b, hb, rfl⟩ := List.mem_map.mp hmem
    clear h
    induction hvariants with
    | nil => cases hb
    | cons hfirst _ ih =>
        rcases List.mem_cons.mp hb with rfl | hb
        · obtain ⟨-, o, ho, hname, -, -⟩ := hfirst
          rw [← hname]
          exact List.mem_map_of_mem (List.mem_map_of_mem ho)
        · exact ih hb (List.mem_map_of_mem hb)

/-- The value of the root of a join fits the types that the join comes from. -/
theorem fits_root {n x : String} {ws vs : List String} {d d' : AliasDefinition}
    (haround : EnvironmentsAgree lenient ev k ρ around around')
    (hinner : InnerEnvironments lenient ev k ρ qs around env env')
    (h : JoinAgrees lenient ev.mapping k ρ qs.pairs (around.scope ev.world)
      (around'.scope ev.world) qs d d' n x ws vs)
    {root? root'? : Option String}
    (horigin : Origin ev.mapping k ρ (around.scope ev.world) (around'.scope ev.world) qs n x vs
      root? root'?) {root : Value} (hroot : root ∈ env.held n) : Fits ev root? root'? root := by
  cases horigin with
  | declared ho hn _ =>
      rw [← hn] at hroot
      exact hinner.fitting _ ho root hroot
  | around href hd hd' htype =>
      rw [Environment.find?_scope] at hd hd'
      rcases haround.names n x vs href with ⟨rfl, heq⟩ | ⟨-, hvs, source, target, hx, hn, hleads⟩
      · rw [typeFrom_nil] at htype
        cases htype
        rw [heq] at hd
        obtain ⟨u, hu, rfl⟩ := Option.map_eq_some_iff.mp hd
        obtain ⟨u', hu', rfl⟩ := Option.map_eq_some_iff.mp hd'
        obtain rfl := Option.some.inj (hu.symm.trans hu')
        exact Or.inl rfl
      · rw [hn] at hd
        rw [hx] at hd'
        cases hd
        cases hd'
        have hfresh : n ∉ qs.aliases := by
          rcases h.refers.append_cases with ⟨-, hnil⟩ | ⟨hfresh, -⟩
          · exact absurd hnil hvs
          · intro hmem
            obtain ⟨d, hd, rfl⟩ := List.mem_map.mp hmem
            obtain ⟨o, ho, rfl⟩ := List.mem_map.mp hd
            exact (hfresh _ (Definitions.mem_pairs ho)).1 rfl
        rw [hinner.outside n hfresh, hn, List.mem_singleton] at hroot
        subst hroot
        cases hleads with
        | nothing => exact Or.inr (Or.inl rfl)
        | @object source target _ _ hsharp =>
            obtain ⟨sup, rfl, hassignable, -⟩ := hsharp _ htype
            exact Or.inr (Or.inr ⟨target, _, sup, rfl, rfl, rfl, by
              simp [Mapping.isInstance, Mapping.isAssignable], hassignable⟩)

/-- Words lead from a fitting value to a fitting one: the types behind them are the same,
unless there are no words or the value is null. -/
theorem Fits.along {root? root'? type? type'? : Option String} {root v : Value}
    {ws : List String} (hfits : Fits ev root? root'? root)
    (htypes : TypesAgree lenient ev.mapping root? root'?)
    (htype : typeFrom ev.mapping.model root? ws = some type?)
    (htype' : typeFrom ev.mapping.model root'? ws = some type'?)
    (hv : Expression.followWords ev root ws = .ok (some v)) : Fits ev type? type'? v := by
  rcases hfits with rfl | rfl | ⟨id, sub, sup, rfl, rfl, rfl, hid, hid'⟩
  · exact Or.inl (Option.some.inj (htype.symm.trans htype'))
  · exact Or.inr (Or.inl (Option.some.inj (Except.ok.inj hv)).symm)
  cases ws with
  | nil =>
      rw [Expression.followWords_nil] at hv
      cases hv
      cases htype
      cases htype'
      exact Or.inr (Or.inr ⟨id, sub, sup, rfl, rfl, rfl, hid, hid'⟩)
  | cons w ws =>
      rcases htypes with heq | ⟨-, hnone | ⟨_, _, hsub, hsup, -, hkeeps⟩⟩
      · cases heq
        exact Or.inl (Option.some.inj (htype.symm.trans htype'))
      · cases hnone
      · cases hsub
        cases hsup
        simp only [typeFrom, typeAlong] at htype htype'
        cases hproperty : ev.mapping.model.propertyType? sup w with
        | none =>
            rw [hproperty] at htype'
            cases htype'
        | some type =>
            rw [show ev.mapping.model.propertyType? sub w = some type from hkeeps w type hproperty]
              at htype
            rw [hproperty] at htype'
            exact Or.inl (Option.some.inj (htype.symm.trans htype'))

/-- The value of what replaces an alias fits the alias and its partner. -/
theorem fits_of_value {r r' : Replacement}
    (haround : EnvironmentsAgree lenient ev k ρ around around')
    (hdeclared : Declared lenient ev.mapping k ρ qs.pairs (around.scope ev.world)
      (around'.scope ev.world) qs)
    (hinner : InnerEnvironments lenient ev k ρ qs around env env')
    (hr : ReplacementsAgree k i j ρ qs r r')
    {evaluate evaluate' : Environment → Phrase → Eval Value}
    (halike : EvaluatesAlike lenient ev k i j evaluate evaluate') {v : Value}
    (hv : (evaluate env r.expression).run.outcome = .ok (some v)) :
    Fits ev r.definition.type? r'.definition.type? v := by
  rcases (hdeclared.agree _ hr.mem).range_or_join with ⟨htypes, -⟩ | ⟨n, x, ws, vs, h⟩
  · exact Or.inl htypes
  obtain ⟨root?, root'?, horigin, htypes, htype, htype'⟩ := h.origin
  rw [hr.path _ h.path, halike.reference env (isReference_ofDotted h.words)] at hv
  unfold Expression.referenceValue at hv
  rw [Environment.alias?_eq_head?] at hv
  cases hhead : (env.held n).head? with
  | none =>
      rw [hhead] at hv
      cases hv
  | some root =>
      rw [hhead] at hv
      exact (fits_root haround hinner h horigin (List.mem_of_mem_head? hhead)).along
        htypes htype htype' hv

end Combining

/-! ## Rows -/

section Answering

variable {lenient : Prop} {ev : Evaluator} {k : Link} {i j : Nat} {ρ : Pairs}
variable {qs : Definitions} {around around' env env' : Environment}
variable {evaluate evaluate' : Environment → Phrase → Eval Value}

/-- The extensions of two agreeing combinations by the candidates of partners. -/
theorem extended_agree (hdeclared : Declared lenient ev.mapping k ρ qs.pairs
      (around.scope ev.world) (around'.scope ev.world) qs)
    {r r' : Replacement} (hr : ReplacementsAgree k i j ρ qs r r') {v : Value}
    (hfits : Fits ev r.definition.type? r'.definition.type? v) {variant variant' : Bindings Value}
    (hvariant : VariantsAgree ev qs variant variant') :
    List.Forall₂ (VariantsAgree ev qs)
      ((candidates ev r.definition v).map fun c => variant ++ [(r.definition.name, c)])
      ((candidates ev r'.definition v).map fun c => variant' ++ [(r'.definition.name, c)]) := by
  have hagree := hdeclared.agree _ hr.mem
  have hcandidates : candidates ev r.definition v = candidates ev r'.definition v :=
    candidates_eq hagree.inner hfits
  rw [← hcandidates, List.forall₂_map_left_iff, List.forall₂_map_right_iff,
    List.forall₂_same]
  intro c hc
  refine List.rel_append hvariant (.cons ⟨rfl, _, hr.mem, rfl, rfl, ?_⟩ .nil)
  exact fits_of_mem_candidates hfits hc

theorem extend_agree (haround : EnvironmentsAgree lenient ev k ρ around around')
    (hdeclared : Declared lenient ev.mapping k ρ qs.pairs (around.scope ev.world)
      (around'.scope ev.world) qs)
    (hinner : InnerEnvironments lenient ev k ρ qs around env env')
    (halike : EvaluatesAlike lenient ev k i j evaluate evaluate') {r r' : Replacement}
    (hr : ReplacementsAgree k i j ρ qs r r') (count : Nat)
    {variants variants' : List (Bindings Value)}
    (hvariants : List.Forall₂ (VariantsAgree ev qs) variants variants') :
    Traced.Agree lenient (List.Forall₂ (VariantsAgree ev qs))
      (extend ev evaluate env r count variants) (extend ev evaluate' env' r' count variants') := by
  induction hvariants generalizing count with
  | nil => exact Traced.Agree.pure .nil
  | @cons variant variant' variants variants' hvariant _ ih =>
      have hstep := hinner.bindVariants hdeclared.nodup hdeclared.pairsOnce hvariant
      simp only [extend]
      refine Traced.Agree.bind (halike.agree hstep.agree hr.expression) fun v? v'? hv _ heq => ?_
      subst heq
      cases v? with
      | none => exact Traced.Agree.fail rfl
      | some v =>
          have hfits := fits_of_value haround hdeclared hstep hr halike hv
          have hextended := extended_agree hdeclared hr hfits hvariant
          simp only [List.length_map, candidates_eq (hdeclared.agree _ hr.mem).inner hfits]
          rw [candidates_eq (hdeclared.agree _ hr.mem).inner hfits] at hextended
          split
          · exact Traced.Agree.fail rfl
          · refine Traced.Agree.bind (ih _) fun others others' _ _ hothers => ?_
            exact Traced.Agree.pure (List.rel_append hextended hothers)

theorem variants_agree (haround : EnvironmentsAgree lenient ev k ρ around around')
    (hdeclared : Declared lenient ev.mapping k ρ qs.pairs (around.scope ev.world)
      (around'.scope ev.world) qs)
    (hinner : InnerEnvironments lenient ev k ρ qs around env env')
    (halike : EvaluatesAlike lenient ev k i j evaluate evaluate') {rs rs' : List Replacement}
    (hrs : List.Forall₂ (ReplacementsAgree k i j ρ qs) rs rs') :
    Traced.Agree lenient (List.Forall₂ (VariantsAgree ev qs))
      (variants ev evaluate env rs) (variants ev evaluate' env' rs') := by
  have harranged := arrange_agree hdeclared hrs .nil
  have hfold : ∀ {os os' : List Replacement},
      List.Forall₂ (ReplacementsAgree k i j ρ qs) os os' →
      ∀ {vs vs' : List (Bindings Value)}, List.Forall₂ (VariantsAgree ev qs) vs vs' →
      Traced.Agree lenient (List.Forall₂ (VariantsAgree ev qs))
        (os.foldlM (fun vs r => extend ev evaluate env r 0 vs) vs)
        (os'.foldlM (fun vs r => extend ev evaluate' env' r 0 vs) vs') := by
    intro os os' hos
    induction hos with
    | nil => exact fun hvs => Traced.Agree.pure hvs
    | cons hr _ ih =>
        intro vs vs' hvs
        rw [List.foldlM_cons, List.foldlM_cons]
        exact Traced.Agree.bind (extend_agree haround hdeclared hinner halike hr 0 hvs)
          fun _ _ _ _ hnext => ih hnext
  unfold variants
  refine Traced.Agree.bind (hfold harranged.1 (.cons .nil .nil)) fun found found' _ _ hfound => ?_
  have hstuck : (arrange [] rs).2.isEmpty = (arrange [] rs').2.isEmpty := by
    rw [Bool.eq_iff_iff, List.isEmpty_iff_length_eq_zero, List.isEmpty_iff_length_eq_zero,
      harranged.2.length_eq]
  rw [hstuck]
  split
  · exact Traced.Agree.pure hfound
  · exact Traced.Agree.fail rfl

theorem holds_agree (halike : EvaluatesAlike lenient ev k i j evaluate evaluate')
    (henv : EnvironmentsAgree lenient ev k ρ env env') {t u : Phrase}
    (h : Corresponds k i j ρ t u) :
    Traced.Agree lenient Eq (holds ev evaluate env t) (holds ev evaluate' env' u) := by
  refine Traced.Agree.bind (halike.agree henv h) fun v v' _ _ heq => ?_
  subst heq
  exact Traced.Agree.refl (fun _ => rfl) _

theorem isAccepted_agree (halike : EvaluatesAlike lenient ev k i j evaluate evaluate')
    (henv : EnvironmentsAgree lenient ev k ρ env env') {condition? condition'? : Option Phrase}
    (h : Option.Rel (Corresponds k i j ρ) condition? condition'?) :
    Traced.Agree lenient Eq (isAccepted ev evaluate env condition?)
      (isAccepted ev evaluate' env' condition'?) := by
  cases h with
  | none => exact Traced.Agree.pure rfl
  | some h =>
      refine Traced.Agree.bind (holds_agree halike henv h) fun b b' _ _ heq => ?_
      subst heq
      cases b with
      | none => exact Traced.Agree.fail rfl
      | some b => exact Traced.Agree.pure rfl

theorem isRefuted_agree (halike : EvaluatesAlike lenient ev k i j evaluate evaluate')
    (henv : EnvironmentsAgree lenient ev k ρ env env') {condition? condition'? : Option Phrase}
    (h : Option.Rel (Corresponds k i j ρ) condition? condition'?) :
    Traced.Agree lenient Eq (isRefuted ev evaluate env condition?)
      (isRefuted ev evaluate' env' condition'?) := by
  cases h with
  | none => exact Traced.Agree.pure rfl
  | some h =>
      refine Traced.Agree.bind (holds_agree halike henv h) fun b b' _ _ heq => ?_
      subst heq
      exact Traced.Agree.pure rfl

theorem project_agree (halike : EvaluatesAlike lenient ev k i j evaluate evaluate')
    (henv : EnvironmentsAgree lenient ev k ρ env env') {paths paths' : List String}
    (h : List.Forall₂ (PathsAgree k ρ) paths paths') :
    Traced.Agree lenient Eq (project evaluate env paths) (project evaluate' env' paths') := by
  induction h with
  | nil => exact Traced.Agree.pure rfl
  | @cons path path' paths paths' hpath _ ih =>
      obtain ⟨n, x, ws, vs, rfl, rfl, hwords, hwords', href⟩ := hpath
      simp only [project]
      refine Traced.Agree.bind (halike.agree henv (.reference (isReference_ofDotted hwords)
        (isReference_ofDotted hwords') href)) fun v? v'? _ _ heq => ?_
      subst heq
      cases v? with
      | none => exact Traced.Agree.fail rfl
      | some v =>
          refine Traced.Agree.bind ih fun vs vs' _ _ heq => ?_
          subst heq
          exact Traced.Agree.pure rfl

theorem rows_agree {s s' : Statement}
    (h : StatementsAgree lenient ev.mapping k i j ρ (around.scope ev.world)
      (around'.scope ev.world) qs s s')
    (halike : EvaluatesAlike lenient ev k i j evaluate evaluate')
    (hinner : InnerEnvironments lenient ev k ρ qs around env env')
    {variants variants' : List (Bindings Value)}
    (hvariants : List.Forall₂ (VariantsAgree ev qs) variants variants') :
    Traced.Agree lenient Eq (rows ev evaluate env s variants)
      (rows ev evaluate' env' s' variants') := by
  induction hvariants with
  | nil => exact Traced.Agree.pure rfl
  | @cons variant variant' variants variants' hvariant _ ih =>
      have hstep := (hinner.bindVariants h.declared.nodup h.declared.pairsOnce hvariant).agree
      simp only [rows]
      refine Traced.Agree.bind (isAccepted_agree halike hstep h.condition) fun b b' _ _ heq => ?_
      subst heq
      cases b with
      | false => exact ih
      | true =>
          refine Traced.Agree.bind (project_agree halike hstep h.selected) fun vs vs' _ _ heq => ?_
          subst heq
          refine Traced.Agree.bind ih fun others others' _ _ heq => ?_
          subst heq
          exact Traced.Agree.pure rfl

/-- Corresponding subselects are answered alike where the environments agree. -/
theorem answer_agree {s s' : Statement}
    (haround : EnvironmentsAgree lenient ev k ρ around around')
    (h : StatementsAgree lenient ev.mapping k i j ρ (around.scope ev.world)
      (around'.scope ev.world) qs s s')
    (halike : EvaluatesAlike lenient ev k i j evaluate evaluate') :
    Traced.Agree lenient Eq (answer ev evaluate around s) (answer ev evaluate' around' s') := by
  have haliases : s.aliases = qs.aliases := by simp [Statement.aliases, h.left, Definitions.aliases]
  have haliases' : s'.aliases = qs.aliases' := by
    simp [Statement.aliases, h.right, Definitions.aliases']
  have hinner : InnerEnvironments lenient ev k ρ qs around _ _ := .unbind haround
  unfold answer
  rw [h.aggregates, haliases, haliases']
  split
  · exact Traced.Agree.fail rfl
  · refine Traced.Agree.bind (isRefuted_agree halike hinner.agree h.condition)
      fun b b' _ _ heq => ?_
    subst heq
    cases b with
    | true => exact Traced.Agree.pure rfl
    | false =>
        refine Traced.Agree.bind (Traced.Agree.lift (replacements_agree h))
          fun rs rs' _ _ hrs => ?_
        refine Traced.Agree.bind (variants_agree haround h.declared hinner halike hrs)
          fun vs vs' _ _ hvs => ?_
        exact rows_agree h halike hinner hvs

end Answering

end RowGuard
