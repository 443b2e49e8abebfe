import RowGuard.Proofs.Delegations
import RowGuard.Proofs.Values

/-!
# Evaluation of corresponding phrases

A subselect is checked, then answered by the first strategy that can decide.
Each step agrees on corresponding subselects, and evaluating the expressions
inside is an evaluation with less nesting, so by induction on the nesting the
values of corresponding phrases agree.  Nesting that is allowed for but not used
makes no difference.
-/

namespace RowGuard

open Query (Label Phrase Statement)
open Query.Phrase

/-- Subselects that correspond count for the nesting on both sides. -/
theorem Corresponds.index_eq {k : Link} {i j : Nat} {ρ : Pairs} {t u : Phrase}
    (h : Corresponds k i j ρ t u) (hlabel : t.label = .subselect) :
    ∃ i' j', i = i' + 1 ∧ j = j' + 1 := by
  cases h with
  | reference ht _ _ => rcases ht.label_cases with hl | hl <;> rw [hl] at hlabel <;> cases hlabel
  | leaf s s' hl _ _ => cases hlabel; cases hl
  | roles => cases hlabel
  | compound s s' hcompound _ => cases hlabel; cases hcompound
  | subselect => exact ⟨_, _, rfl, rfl⟩

namespace Evaluator

variable {lenient : Prop} {ev : Evaluator} {k : Link} {i j : Nat} {ρ : Pairs}
variable {env env' : Environment} {t u : Phrase}

section Decisions

variable {answer answer' : Strategy → Traced (List Value)} {s : Strategy} {rest : List Strategy}

theorem firstDecision_of_ok {rows : List Value} (h : (answer s).outcome = .ok rows) :
    (firstDecision answer (s :: rest)).outcome = .ok (some rows) := by
  simp only [firstDecision, h]

/-- A strategy that cannot decide leaves it to the others. -/
theorem firstDecision_of_undecidable {e : Fault} (h : (answer s).outcome = .error e)
    (hlight : e.isUndecidable = true) :
    (firstDecision answer (s :: rest)).outcome = (firstDecision answer rest).outcome := by
  cases e with
  | undecidable reason => simp only [firstDecision, h]
  | _ => cases hlight

theorem firstDecision_of_heavy {e : Fault} (h : (answer s).outcome = .error e)
    (hheavy : e.isUndecidable = false) :
    (firstDecision answer (s :: rest)).outcome = .error e := by
  cases e with
  | undecidable reason => cases hheavy
  | _ => simp only [firstDecision, h]

/-- Strategies that agree one by one come to the same decision. -/
theorem firstDecision_agree {strategies : List Strategy}
    (h : ∀ s ∈ strategies, Traced.Agree lenient Eq (answer s) (answer' s)) :
    Traced.Agree lenient Eq (firstDecision answer strategies)
      (firstDecision answer' strategies) := by
  induction strategies with
  | nil => exact Traced.Agree.pure rfl
  | cons s rest ih =>
      have hfirst := h s (by simp)
      have hrest := ih fun r hr => h r (List.mem_cons_of_mem s hr)
      unfold Traced.Agree at hfirst hrest ⊢
      rcases hleft : (answer s).outcome with e | rows <;>
        rcases hright : (answer' s).outcome with e' | rows' <;>
        rw [hleft, hright] at hfirst
      · have hweights : lenient ∨ e.isUndecidable = e'.isUndecidable := hfirst
        cases hlight : e.isUndecidable <;> cases hlight' : e'.isUndecidable <;>
          rw [hlight, hlight'] at hweights
        · rw [firstDecision_of_heavy hleft hlight, firstDecision_of_heavy hright hlight']
          exact Or.inr (hlight.trans hlight'.symm)
        · rw [firstDecision_of_heavy hleft hlight]
          exact Outcome.Agree.of_heavy (hweights.resolve_right (by simp)) hlight _
        · rw [firstDecision_of_heavy hright hlight']
          exact Outcome.Agree.of_heavy_right (hweights.resolve_right (by simp)) hlight' _
        · rw [firstDecision_of_undecidable hleft hlight,
            firstDecision_of_undecidable hright hlight']
          exact hrest
      · obtain ⟨hlenient, hheavy⟩ : lenient ∧ e.isUndecidable = false := hfirst
        rw [firstDecision_of_heavy hleft hheavy]
        exact Outcome.Agree.of_heavy hlenient hheavy _
      · obtain ⟨hlenient, hheavy⟩ : lenient ∧ e'.isUndecidable = false := hfirst
        rw [firstDecision_of_heavy hright hheavy]
        exact Outcome.Agree.of_heavy_right hlenient hheavy _
      · rw [firstDecision_of_ok hleft, firstDecision_of_ok hright]
        exact congrArg some hfirst

end Decisions

/-- The answers of each strategy to corresponding subselects. -/
theorem answerBy_agree {qs : Definitions} {evaluate evaluate' : Environment → Phrase → Eval Value}
    {s s' : Statement} {strategy : Strategy}
    (hexact : strategy = .persistenceSession → k.exact)
    (henv : EnvironmentsAgree lenient ev k ρ env env')
    (h : StatementsAgree lenient ev.mapping k i j ρ (env.scope ev.world)
      (env'.scope ev.world) qs s s')
    (halike : EvaluatesAlike lenient ev k i j evaluate evaluate') :
    Traced.Agree lenient Eq (answerBy ev evaluate env s strategy)
      (answerBy ev evaluate' env' s' strategy) := by
  cases strategy with
  | simple => exact RowGuard.answer_agree henv h halike
  | persistenceSession =>
      simp only [answerBy]
      rw [Delegation.answer_eq (hexact rfl) henv h halike]
      exact Traced.Agree.refl (fun _ => rfl) _

/-- What a subselect that cannot be checked comes to. -/
theorem subselect_of_error {evaluate : Environment → Phrase → Eval Value} {e : Query.ScopeError}
    (h : Statement.ofSubselect (some ev.mapping.model) (env.scope ev.world) t = .error e) :
    ev.subselect evaluate env t =
      if e.isUnresolved then Eval.undefined else Eval.fail (.illScoped e) := by
  unfold subselect Query.ScopeError.isUnresolved
  rw [h]
  simp only
  cases e.fault <;> rfl

theorem subselect_of_ok {evaluate : Environment → Phrase → Eval Value} {s : Statement}
    (h : Statement.ofSubselect (some ev.mapping.model) (env.scope ev.world) t = .ok s) :
    ev.subselect evaluate env t = (do
      let rows ← OptionT.mk (firstDecision (answerBy ev evaluate env s) ev.strategies)
      return .collection rows) := by
  unfold subselect
  rw [h]

/-- Subselects with corresponding normal forms have the same rows. -/
theorem subselect_agree {evaluate evaluate' : Environment → Phrase → Eval Value}
    (hexact : .persistenceSession ∈ ev.strategies → k.exact)
    (henv : EnvironmentsAgree lenient ev k ρ env env')
    (halike : EvaluatesAlike lenient ev k i j evaluate evaluate')
    (h : Corresponds k (i + 1) (j + 1) ρ t.normalize u.normalize)
    (hlabel : t.label = .subselect) (hlabel' : u.label = .subselect) :
    Eval.Agree lenient (ev.subselect evaluate env t) (ev.subselect evaluate' env' u) := by
  have hchecked := ofSubselect_agree henv.scopesAgree h hlabel hlabel'
  rcases hleft : Statement.ofSubselect (some ev.mapping.model) (env.scope ev.world) t with e | s <;>
    rcases hright : Statement.ofSubselect (some ev.mapping.model) (env'.scope ev.world) u
      with e' | s' <;>
    rw [hleft, hright] at hchecked
  · have hweights : lenient ∨ e.isUnresolved = e'.isUnresolved := hchecked
    rw [subselect_of_error hleft, subselect_of_error hright]
    cases hlight : e.isUnresolved <;> cases hlight' : e'.isUnresolved <;>
      rw [hlight, hlight'] at hweights
    · exact Or.inr rfl
    · exact Eval.Agree.fail_left (hweights.resolve_right (by simp)) rfl _
    · exact Eval.Agree.fail_right (hweights.resolve_right (by simp)) rfl _
    · exact Eval.Agree.refl _
  · obtain ⟨hlenient, hheavy⟩ : lenient ∧ e.isUnresolved = false := hchecked
    rw [subselect_of_error hleft, hheavy]
    exact Eval.Agree.fail_left hlenient rfl _
  · obtain ⟨hlenient, hheavy⟩ : lenient ∧ e'.isUnresolved = false := hchecked
    rw [subselect_of_error hright, hheavy]
    exact Eval.Agree.fail_right hlenient rfl _
  · obtain ⟨qs, hstatements⟩ := hchecked
    rw [subselect_of_ok hleft, subselect_of_ok hright]
    refine Eval.Agree.bind (firstDecision_agree fun strategy hstrategy => ?_)
      fun _ _ _ => Eval.Agree.refl _
    exact answerBy_agree (fun heq => hexact (heq ▸ hstrategy)) henv hstatements halike

/-- Without nesting there are no subselects. -/
theorem subselectsAgree_zero {sub sub' : Phrase → Eval Value} (hzero : i = 0 ∨ j = 0) :
    SubselectsAgree lenient k i j ρ sub sub' := by
  intro t u h hlabel
  obtain ⟨i', j', rfl, rfl⟩ := h.index_eq hlabel
  rcases hzero with hzero | hzero <;> cases hzero

theorem valueAt_reference (n : Nat) (env : Environment) {x : String} {ws : List String}
    (ht : t.IsReference x ws) :
    ev.valueAt n env t = Eval.ofOutcome (Expression.referenceValue ev env x ws) := by
  cases n <;> exact Expression.value_reference ev _ env ht

/-- The nesting that is allowed for may differ, as long as it is enough. -/
theorem valueAt_agree (hexact : .persistenceSession ∈ ev.strategies → k.exact) {n n' : Nat}
    (hleft : i ≤ n) (hright : j ≤ n') (henv : EnvironmentsAgree lenient ev k ρ env env')
    (h : Corresponds k i j ρ t u) :
    Eval.Agree lenient (ev.valueAt n env t) (ev.valueAt n' env' u) := by
  induction n generalizing i j n' ρ env env' t u with
  | zero =>
      have hzero : i = 0 ∨ j = 0 := by omega
      cases n' <;> exact h.value_agree henv (subselectsAgree_zero hzero)
  | succ n ih =>
      cases n' with
      | zero => exact h.value_agree henv (subselectsAgree_zero (Or.inr (by omega)))
      | succ n' =>
          refine h.value_agree henv fun t u h hlabel => ?_
          obtain ⟨i, j, rfl, rfl⟩ := h.index_eq hlabel
          have hlabel' : u.label = .subselect :=
            (h.label_eq_iff rfl (by simp) (by simp)).mp hlabel
          refine subselect_agree hexact henv ⟨?_, ?_, ?_⟩ h.normalize hlabel hlabel'
          · intro ρ env env' t u henv h
            exact ih (by omega) (by omega) henv h
          · exact fun env t x ws ht => valueAt_reference n env ht
          · exact fun env t x ws ht => valueAt_reference n' env ht

/-- Evaluation with enough nesting evaluates corresponding phrases alike. -/
theorem evaluatesAlike (hexact : .persistenceSession ∈ ev.strategies → k.exact) {n n' : Nat}
    (hleft : i ≤ n) (hright : j ≤ n') :
    EvaluatesAlike lenient ev k i j (ev.valueAt n) (ev.valueAt n') where
  agree henv h := valueAt_agree hexact hleft hright henv h
  reference env _ _ _ ht := valueAt_reference n env ht
  reference' env _ _ _ ht := valueAt_reference n' env ht

end Evaluator

/-! ## Nesting -/

theorem Query.Phrase.AreSegments.depthAll_eq {segments : List Phrase} {ws : List String}
    (h : AreSegments segments ws) : depthAll segments = 0 := by
  induction h with
  | nil => rfl
  | cons span hword _ ih => simp [depthAll, depth, ih]

theorem Query.Phrase.IsReference.depth_eq {t : Phrase} {x : String} {ws : List String}
    (h : t.IsReference x ws) : t.depth = 0 := by
  cases h with
  | name => simp [depth, depthAll]
  | path rootSpan span hword hsegments => simp [depth, depthAll, hsegments.depthAll_eq]

theorem depthAll_eq_zero {ts : List Phrase} (h : ∀ t ∈ ts, t.depth = 0) : depthAll ts = 0 := by
  induction ts with
  | nil => rfl
  | cons t ts ih =>
      rw [depthAll, h t (by simp), ih fun u hu => h u (List.mem_cons_of_mem t hu)]
      rfl

theorem JoinsCorrespond.depth_eq {k : Link} {ρ P D E : Pairs} {js ks : List Phrase}
    (h : JoinsCorrespond k ρ P D js ks E) : ∀ j ∈ js, j.depth = 0 := by
  induction h with
  | nil => simp
  | bare outer fetch s s' hp _ _ _ ih =>
      intro j hj
      rcases List.mem_cons.mp hj with rfl | hj
      · simp [depth, depthAll, hp.depth_eq]
      · exact ih j hj
  | named outer fetch s s' r r' hp _ _ _ _ _ _ _ ih =>
      intro j hj
      rcases List.mem_cons.mp hj with rfl | hj
      · simp [depth, depthAll, hp.depth_eq]
      · exact ih j hj

theorem RangesCorrespond.depthAll_eq {D E : Pairs} {items items' : List Phrase}
    (h : RangesCorrespond D items items' E) (hjoins : ∀ j ∈ joinsOf items, j.depth = 0) :
    depthAll items = 0 := by
  induction h with
  | nil => rfl
  | @cons D E items items' js ks a b entity s₁ s₂ s₃ s₁' s₂' s₃' _ _ _ _ ih =>
      simp only [joinsOf, List.flatMap_cons, List.mem_append] at hjoins
      have hjs : depthAll js = 0 := depthAll_eq_zero fun j hj =>
        hjoins j (Or.inl (by simpa [Phrase.children] using hj))
      have hitems := ih fun j hj => hjoins j (Or.inr hj)
      simp [depthAll, depth, hjs, hitems]

mutual

/-- What corresponds with some nesting does not nest deeper. -/
theorem Corresponds.depth_le {k : Link} :
    ∀ {i j : Nat} {ρ : Pairs} {t u : Phrase}, Corresponds k i j ρ t u → t.depth ≤ i
  | _, _, _, _, _, .reference ht _ _ => by rw [ht.depth_eq]; exact Nat.zero_le _
  | _, _, _, _, _, .leaf (l := l) s _ hl _ _ => by
      cases l <;> first | exact Nat.zero_le _ | cases hl
  | _, _, _, _, _, .roles s _ r h _ _ => by
      have hd := h.depth_le
      simp only [depth, depthAll]
      simpa using hd
  | _, _, _, _, _, .subselect distinct s₁ s₂ s₃ _ _ _ hranges hjoins hselect hrest _ _ => by
      have hd := hselect.depthAll_le
      have hd' := hrest.depthAll_le
      have hitems := hranges.depthAll_eq hjoins.depth_eq
      simp only [depth, depthAll, hitems]
      simp
      omega
  | _, _, _, _, _, .compound (l := l) s _ hcompound h => by
      have hd := h.depthAll_le
      have hl : l ≠ .subselect := by
        rintro rfl
        cases hcompound
      simpa [depth, hl] using hd

theorem AllCorrespond.depthAll_le {k : Link} :
    ∀ {i j : Nat} {ρ : Pairs} {ts us : List Phrase}, AllCorrespond k i j ρ ts us →
      depthAll ts ≤ i
  | _, _, _, _, _, .nil => Nat.zero_le _
  | _, _, _, _, _, .cons h hs => by
      have hd := h.depth_le
      have hd' := hs.depthAll_le
      simp only [depthAll]
      omega

end

mutual

/-- Phrases correspond with no more nesting than they have. -/
theorem Corresponds.lower {k : Link} :
    ∀ {i j d d' : Nat} {ρ : Pairs} {t u : Phrase}, Corresponds k i j ρ t u →
      t.depth ≤ d → u.depth ≤ d' → Corresponds k d d' ρ t u
  | _, _, _, _, _, _, _, .reference ht hu href, _, _ => .reference ht hu href
  | _, _, _, _, _, _, _, .leaf s s' hl hm hleaf, _, _ => .leaf s s' hl hm hleaf
  | _, _, _, _, _, _, _, .roles s s' r h hroles hne, hd, hd' => by
      simp only [depth, depthAll] at hd hd'
      exact .roles s s' r (h.lower (by omega) (by omega)) hroles hne
  | _, _, d, d', _, _, _, .subselect distinct s₁ s₂ s₃ s₁' s₂' s₃' hranges hjoins hselect hrest
      hfinal hexact, hd, hd' => by
      simp only [depth, depthAll, if_true] at hd hd'
      obtain ⟨d, rfl⟩ : ∃ e, d = e + 1 := ⟨d - 1, by omega⟩
      obtain ⟨d', rfl⟩ : ∃ e, d' = e + 1 := ⟨d' - 1, by omega⟩
      exact .subselect distinct s₁ s₂ s₃ s₁' s₂' s₃' hranges hjoins
        (hselect.lower (by omega) (by omega)) (hrest.lower (by omega) (by omega)) hfinal hexact
  | _, _, _, _, _, _, _, .compound s s' hcompound h, hd, hd' => by
      simp only [depth] at hd hd'
      exact .compound s s' hcompound (h.lower (by omega) (by omega))

theorem AllCorrespond.lower {k : Link} :
    ∀ {i j d d' : Nat} {ρ : Pairs} {ts us : List Phrase}, AllCorrespond k i j ρ ts us →
      depthAll ts ≤ d → depthAll us ≤ d' → AllCorrespond k d d' ρ ts us
  | _, _, _, _, _, _, _, .nil, _, _ => .nil
  | _, _, _, _, _, _, _, .cons h hs, hd, hd' => by
      simp only [depthAll] at hd hd'
      exact .cons (h.lower (by omega) (by omega)) (hs.lower (by omega) (by omega))

end

/-- Corresponding phrases have the same value in agreeing environments. -/
theorem Evaluator.value_agree {lenient : Prop} {ev : Evaluator} {k : Link} {i j : Nat}
    {ρ : Pairs} {env env' : Environment} {t u : Phrase}
    (hexact : .persistenceSession ∈ ev.strategies → k.exact)
    (henv : EnvironmentsAgree lenient ev k ρ env env') (h : Corresponds k i j ρ t u) :
    Eval.Agree lenient (ev.value env t) (ev.value env' u) :=
  valueAt_agree hexact (Nat.le_refl _) (Nat.le_refl _) henv
    (h.lower (Nat.le_refl _) (Nat.le_refl _))

end RowGuard
