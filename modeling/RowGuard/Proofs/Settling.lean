import RowGuard.Proofs.Shapes

/-!
# Settled results

A computation keeps what another one settles if, whenever both come to
something, a value of the one is the value of the other.  What is undefined on
the one side may be anything on the other, and an error on either side promises
nothing.  Operations that do not look at all of their operands pass this on:
an operand that is not settled may turn out as one that decides, but then it
decides as the others did.
-/

namespace RowGuard

open Query (AliasDefinition Label Phrase)
open Query.Phrase
open Query.Scope

variable {α β γ δ : Type}

/-- What is found first is found again. -/
def Settles (a b : Option α) : Prop := ∀ v, a = some v → b = some v

theorem Settles.refl (a : Option α) : Settles a a := fun _ h => h

theorem Settles.none (b : Option α) : Settles none b := by
  intro v h
  cases h

theorem Settles.map {a b : Option α} (h : Settles a b) (f : α → β) :
    Settles (a.map f) (b.map f) := by
  intro v hv
  obtain ⟨w, hw, rfl⟩ := Option.map_eq_some_iff.mp hv
  rw [h w hw]
  rfl

theorem Settles.bind {a b : Option α} (h : Settles a b) (f : α → Option β) :
    Settles (a.bind f) (b.bind f) := by
  intro v hv
  obtain ⟨w, hw, hfw⟩ := Option.bind_eq_some_iff.mp hv
  rw [h w hw]
  exact hfw

namespace Traced

/-- If both computations have a result, the results are related. -/
def Keeps (R : α → β → Prop) (x : Traced α) (y : Traced β) : Prop :=
  ∀ a b, x.outcome = .ok a → y.outcome = .ok b → R a b

variable {R : α → β → Prop} {S : γ → δ → Prop} {x : Traced α} {y : Traced β}

theorem outcome_bind_eq_ok {f : α → Traced γ} {c : γ} :
    (x >>= f).outcome = .ok c ↔ ∃ a, x.outcome = .ok a ∧ (f a).outcome = .ok c := by
  rw [outcome_bind]
  constructor
  · exact Query.Scope.ok_of_bind
  · rintro ⟨a, ha, hc⟩
    rw [ha]
    exact hc

theorem Keeps.pure {a : α} {b : β} (h : R a b) :
    Keeps R (pure a : Traced α) (pure b : Traced β) := by
  intro a' b' ha hb
  cases ha
  cases hb
  exact h

theorem Keeps.refl {R : α → α → Prop} (hR : ∀ a, R a a) (x : Traced α) : Keeps R x x := by
  intro a b ha hb
  cases ha.symm.trans hb
  exact hR a

theorem Keeps.mono {R' : α → β → Prop} (h : Keeps R x y) (hR : ∀ a b, R a b → R' a b) :
    Keeps R' x y :=
  fun a b ha hb => hR a b (h a b ha hb)

theorem Keeps.bind {f : α → Traced γ} {g : β → Traced δ} (h : Keeps R x y)
    (hnext : ∀ a b, R a b → Keeps S (f a) (g b)) : Keeps S (x >>= f) (y >>= g) := by
  intro c d hc hd
  obtain ⟨a, ha, hc⟩ := outcome_bind_eq_ok.mp hc
  obtain ⟨b, hb, hd⟩ := outcome_bind_eq_ok.mp hd
  exact hnext a b (h a b ha hb) c d hc hd

theorem Keeps.fail_left (f : Fault) (y : Traced β) : Keeps R (fail f : Traced α) y := by
  intro a b ha
  cases ha

theorem Keeps.none_left {x : Traced (Option α)} (hx : x.outcome = .ok none)
    (y : Traced (Option α)) : Keeps Settles x y := by
  intro a b ha _
  cases hx.symm.trans ha
  exact Settles.none b

/-- Computations that agree keep what the one of them settles. -/
theorem Agree.keeps {lenient : Prop} (h : Agree lenient R x y) : Keeps R x y := by
  intro a b ha hb
  unfold Agree at h
  rw [ha, hb] at h
  exact h

end Traced

namespace Eval

/-- A value of the first evaluation is the value of the second, unless that fails. -/
def Keeps (x y : Eval α) : Prop := Traced.Keeps Settles x.run y.run

theorem Keeps.refl (x : Eval α) : Keeps x x := Traced.Keeps.refl Settles.refl x.run

theorem Keeps.undefined_left (y : Eval α) : Keeps undefined y :=
  Traced.Keeps.none_left rfl y.run

theorem Keeps.fail_left (f : Fault) (y : Eval α) : Keeps (fail f) y :=
  Traced.Keeps.fail_left f y.run

theorem Keeps.bind {x y : Eval α} {f g : α → Eval β} (h : Keeps x y)
    (hnext : ∀ a, Keeps (f a) (g a)) : Keeps (x >>= f) (y >>= g) := by
  show Traced.Keeps Settles _ _
  rw [OptionT.run_bind, OptionT.run_bind]
  refine Traced.Keeps.bind h fun a b hab => ?_
  cases a with
  | none => exact Traced.Keeps.none_left rfl _
  | some a =>
      rw [hab a rfl]
      exact hnext a

theorem Keeps.ofTruth {x y : Traced (Option Bool)} (h : Traced.Keeps Settles x y) :
    Keeps (ofTruth x) (ofTruth y) := by
  show Traced.Keeps Settles (x >>= _) (y >>= _)
  exact Traced.Keeps.bind h fun a b hab => Traced.Keeps.pure (hab.map Value.boolean)

theorem Agree.keeps {lenient : Prop} {x y : Eval α} (h : Agree lenient x y) : Keeps x y :=
  (Traced.Agree.keeps h).mono fun a _ hab => hab ▸ Settles.refl a

end Eval

namespace Expression

variable {ev : Evaluator} {sub sub' : Phrase → Eval Value} {env env' : Environment}

/-- Children of which each keeps the value of its counterpart. -/
abbrev KeptValues (ev : Evaluator) (sub sub' : Phrase → Eval Value) (env env' : Environment) :
    List Phrase → List Phrase → Prop :=
  List.Forall₂ fun t u => Eval.Keeps (value ev sub env t) (value ev sub' env' u)

theorem values_keeps {ts us : List Phrase} (h : KeptValues ev sub sub' env env' ts us) :
    Eval.Keeps (values ev sub env ts) (values ev sub' env' us) := by
  induction h with
  | nil => exact Eval.Keeps.refl _
  | cons hfirst _ ih =>
      simp only [values]
      exact Eval.Keeps.bind hfirst fun v => Eval.Keeps.bind ih fun vs => Eval.Keeps.refl _

/-- The truth of a settled value is settled. -/
theorem settles_truth {v v' : Option Value} {b b' : Option Bool} (h : Settles v v')
    (hb : Operation.truth ev.world v = .ok b) (hb' : Operation.truth ev.world v' = .ok b') :
    Settles b b' := by
  cases v with
  | none =>
      cases hb
      exact Settles.none b'
  | some v =>
      rw [h v rfl] at hb'
      cases hb.symm.trans hb'
      exact Settles.refl b

theorem truth_keeps {x y : Eval Value} (h : Eval.Keeps x y) {α β : Type}
    {f : Option Bool → Traced α} {g : Option Bool → Traced β} {R : α → β → Prop}
    (hnext : ∀ b b', Settles b b' → Traced.Keeps R (f b) (g b')) :
    Traced.Keeps R
      (x.run >>= fun v => Traced.lift (Operation.truth ev.world v) >>= f)
      (y.run >>= fun v => Traced.lift (Operation.truth ev.world v) >>= g) := by
  refine Traced.Keeps.bind h fun v v' hv => ?_
  exact Traced.Keeps.bind (R := Settles) (fun _ _ hb hb' => settles_truth hv hb hb') hnext

/-- Behind an undecided operand only one decision is left, which the others make. -/
theorem undecided_keeps (decisive : Bool) {x y : Traced (Option Bool)}
    {f : Option Bool → Traced (Option Bool)}
    (hf : ∀ b a, (f b).outcome = .ok a → a = none ∨ b = some decisive ∧ a = some decisive)
    (h : x.outcome = .ok (some decisive) → ∀ b, y.outcome = .ok b → b = some decisive) :
    Traced.Keeps Settles (x >>= f) y := by
  intro a b ha hb
  obtain ⟨c, hc, ha⟩ := Traced.outcome_bind_eq_ok.mp ha
  rcases hf c a ha with rfl | ⟨rfl, rfl⟩
  · exact Settles.none b
  · rw [h hc b hb]
    exact Settles.refl _

theorem anyHolds_keeps {ts us : List Phrase} (h : KeptValues ev sub sub' env env' ts us) :
    Traced.Keeps Settles (anyHolds ev sub env ts) (anyHolds ev sub' env' us) := by
  induction h with
  | nil => exact Traced.Keeps.pure (Settles.refl _)
  | cons hfirst _ ih =>
      simp only [anyHolds]
      refine truth_keeps hfirst fun b b' hb => ?_
      rcases b with _ | _ | _
      · refine undecided_keeps true ?_ fun hx c hc => ?_
        · rintro (_ | _ | _) a ha <;> cases ha <;> simp
        · rcases b' with _ | _ | _
          · obtain ⟨d, hd, hc⟩ := Traced.outcome_bind_eq_ok.mp hc
            rw [ih _ _ hx hd true rfl] at hc
            cases hc
            rfl
          · exact ih _ _ hx hc true rfl
          · cases hc
            rfl
      · rw [hb false rfl]
        exact ih
      · rw [hb true rfl]
        exact Traced.Keeps.refl Settles.refl _

theorem allHold_keeps {ts us : List Phrase} (h : KeptValues ev sub sub' env env' ts us) :
    Traced.Keeps Settles (allHold ev sub env ts) (allHold ev sub' env' us) := by
  induction h with
  | nil => exact Traced.Keeps.pure (Settles.refl _)
  | cons hfirst _ ih =>
      simp only [allHold]
      refine truth_keeps hfirst fun b b' hb => ?_
      rcases b with _ | _ | _
      · refine undecided_keeps false ?_ fun hx c hc => ?_
        · rintro (_ | _ | _) a ha <;> cases ha <;> simp
        · rcases b' with _ | _ | _
          · obtain ⟨d, hd, hc⟩ := Traced.outcome_bind_eq_ok.mp hc
            rw [ih _ _ hx hd false rfl] at hc
            cases hc
            rfl
          · cases hc
            rfl
          · exact ih _ _ hx hc false rfl
      · rw [hb false rfl]
        exact Traced.Keeps.refl Settles.refl _
      · rw [hb true rfl]
        exact ih

theorem anyHas_keeps (v : Value) {ts us : List Phrase}
    (h : KeptValues ev sub sub' env env' ts us) :
    Traced.Keeps Settles (anyHas ev sub env v ts) (anyHas ev sub' env' v us) := by
  induction h with
  | nil => exact Traced.Keeps.pure (Settles.refl _)
  | cons hfirst _ ih =>
      simp only [anyHas]
      refine Traced.Keeps.bind hfirst fun found? found'? hfound => ?_
      rcases found? with _ | found
      · refine undecided_keeps true ?_ fun hx c hc => ?_
        · rintro (_ | _ | _) a ha <;> cases ha <;> simp
        · rcases found'? with _ | found
          · obtain ⟨d, hd, hc⟩ := Traced.outcome_bind_eq_ok.mp hc
            rw [ih _ _ hx hd true rfl] at hc
            cases hc
            rfl
          · simp only at hc
            split at hc
            · cases hc
              rfl
            · exact ih _ _ hx hc true rfl
      · rw [hfound found rfl]
        simp only
        split
        · exact Traced.Keeps.refl Settles.refl _
        · exact ih

/-- What the bounds found so far decide, further bounds decide alike. -/
theorem settles_isBetween (v : Value) {low low' high high' : Option Value}
    (hlow : Settles low low') (hhigh : Settles high high') :
    Settles (Operation.isBetween v low high) (Operation.isBetween v low' high') := by
  have hcompare := hlow.bind v.compare?
  have hcompare' := hhigh.bind v.compare?
  unfold Operation.isBetween
  simp only
  generalize low.bind v.compare? = a at hcompare ⊢
  generalize low'.bind v.compare? = a' at hcompare ⊢
  generalize high.bind v.compare? = b at hcompare' ⊢
  generalize high'.bind v.compare? = b' at hcompare' ⊢
  cases a with
  | none =>
      cases b with
      | none => exact Settles.none _
      | some b =>
          rw [hcompare' b rfl]
          cases b <;> simp [Settles]
  | some a =>
      rw [hcompare a rfl]
      cases b with
      | none => cases a <;> simp [Settles]
      | some b =>
          rw [hcompare' b rfl]
          exact Settles.refl _

/-! ## Nodes -/

namespace KeptValues

variable {ts us : List Phrase}

theorem singleton (h : KeptValues ev sub sub' env env' ts us) (hlength : ts.length = 1) :
    ∃ t u, ts = [t] ∧ us = [u] ∧ Eval.Keeps (value ev sub env t) (value ev sub' env' u) := by
  cases h with
  | nil => cases hlength
  | cons hfirst hrest =>
      cases hrest with
      | nil => exact ⟨_, _, rfl, rfl, hfirst⟩
      | cons => simp at hlength

theorem uncons {n : Nat} (h : KeptValues ev sub sub' env env' ts us)
    (hlength : ts.length = n + 1) :
    ∃ t u ts' us', ts = t :: ts' ∧ us = u :: us' ∧
      Eval.Keeps (value ev sub env t) (value ev sub' env' u) ∧
      KeptValues ev sub sub' env env' ts' us' ∧ ts'.length = n := by
  cases h with
  | nil => cases hlength
  | cons hfirst hrest => exact ⟨_, _, _, _, rfl, rfl, hfirst, hrest, by simpa using hlength⟩

theorem ne_nil (h : KeptValues ev sub sub' env env' ts us) (hlength : 1 ≤ ts.length) :
    ts ≠ [] ∧ us ≠ [] := by
  have heq := List.Forall₂.length_eq h
  exact ⟨List.length_pos_iff.mp hlength, List.length_pos_iff.mp (heq ▸ hlength)⟩

end KeptValues

theorem enclosing_keeps {l : Label}
    (hl : l = .whereClause ∨ l = .havingClause ∨ l = .brackets) {ts us : List Phrase}
    (hlength : ts.length = 1) (h : KeptValues ev sub sub' env env' ts us)
    (s s' : Source.Span) :
    Eval.Keeps (value ev sub env (.node l ts s)) (value ev sub' env' (.node l us s')) := by
  obtain ⟨t, u, rfl, rfl, hvalue⟩ := h.singleton hlength
  rw [value_enclosing hl, value_enclosing hl]
  exact hvalue

theorem not_keeps {t u : Phrase} (h : Eval.Keeps (value ev sub env t) (value ev sub' env' u))
    (s s' : Source.Span) :
    Eval.Keeps (value ev sub env (.node .not [t] s)) (value ev sub' env' (.node .not [u] s')) := by
  rw [value_not, value_not]
  exact Eval.Keeps.ofTruth (truth_keeps h fun b b' hb => Traced.Keeps.pure (hb.map Bool.not))

theorem equal_keeps {t t' u u' : Phrase}
    (hleft : Eval.Keeps (value ev sub env t) (value ev sub' env' u))
    (hright : Eval.Keeps (value ev sub env t') (value ev sub' env' u')) (s s' : Source.Span) :
    Eval.Keeps (value ev sub env (.node (.compare .equal) [t, t'] s))
      (value ev sub' env' (.node (.compare .equal) [u, u'] s')) := by
  rw [value_equal, value_equal]
  refine Eval.Keeps.bind hleft fun l => ?_
  by_cases hnull : l.isNull
  · simp only [hnull, if_true]
    exact Eval.Keeps.refl _
  · simp only [hnull]
    exact Eval.Keeps.bind hright fun r => Eval.Keeps.refl _

theorem between_keeps {t lower upper u lower' upper' : Phrase}
    (h : Eval.Keeps (value ev sub env t) (value ev sub' env' u))
    (hlower : Eval.Keeps (value ev sub env lower) (value ev sub' env' lower'))
    (hupper : Eval.Keeps (value ev sub env upper) (value ev sub' env' upper'))
    (s s' : Source.Span) :
    Eval.Keeps (value ev sub env (.node .between [t, lower, upper] s))
      (value ev sub' env' (.node .between [u, lower', upper'] s')) := by
  rw [value_between, value_between]
  refine Eval.Keeps.bind h fun v => ?_
  split
  · exact Eval.Keeps.refl _
  · refine Eval.Keeps.ofTruth (Traced.Keeps.bind hlower fun low low' hlow => ?_)
    refine Traced.Keeps.bind hupper fun high high' hhigh => ?_
    exact Traced.Keeps.pure (settles_isBetween v hlow hhigh)

theorem isIn_keeps {c c' : Phrase} {items items' : List Phrase} (hitems : items ≠ [])
    (hitems' : items' ≠ []) (hfirst : Eval.Keeps (value ev sub env c) (value ev sub' env' c'))
    (h : ∀ v : Value, v.isNull = false →
      Traced.Keeps Settles (anyHas ev sub env v items) (anyHas ev sub' env' v items'))
    (s s' : Source.Span) :
    Eval.Keeps (value ev sub env (.node .isIn (c :: items) s))
      (value ev sub' env' (.node .isIn (c' :: items') s')) := by
  rw [value_isIn c hitems, value_isIn c' hitems']
  refine Eval.Keeps.bind hfirst fun v => ?_
  by_cases hnull : v.isNull
  · simp only [hnull, if_true]
    exact Eval.Keeps.refl _
  · simp only [hnull]
    exact Eval.Keeps.ofTruth (h v (by simpa using hnull))

/-- A node keeps the value of its counterpart if its children do. -/
theorem node_keeps {l : Label} (hcompound : l.isCompound) {ts us : List Phrase}
    (h : KeptValues ev sub sub' env env' ts us) (s s' : Source.Span) :
    Eval.Keeps (value ev sub env (.node l ts s)) (value ev sub' env' (.node l us s')) := by
  have hlength : ts.length = us.length := h.length_eq
  cases hcount : Operation.admits l ts.length with
  | false =>
      rw [value_of_not_admits hcompound hcount]
      exact Eval.Keeps.fail_left _ _
  | true =>
      cases hspecial : isSpecial l with
      | false =>
          rw [value_of_admits hcompound hspecial hcount,
            value_of_admits hcompound hspecial (hlength ▸ hcount)]
          split
          · exact Eval.Keeps.bind (values_keeps h) fun vs => Eval.Keeps.refl _
          · exact Eval.Keeps.refl _
      | true =>
          cases l with
          | whereClause => exact enclosing_keeps (by simp) (Operation.eq_of_admits rfl hcount) h s s'
          | havingClause => exact enclosing_keeps (by simp) (Operation.eq_of_admits rfl hcount) h s s'
          | brackets => exact enclosing_keeps (by simp) (Operation.eq_of_admits rfl hcount) h s s'
          | not =>
              obtain ⟨t, u, rfl, rfl, hvalue⟩ := h.singleton (Operation.eq_of_admits rfl hcount)
              exact not_keeps hvalue s s'
          | compare op =>
              cases op with
              | equal =>
                  have hlength := Operation.eq_of_admits rfl hcount
                  obtain ⟨t, u, ts, us, rfl, rfl, hleft, h, hlength⟩ := h.uncons hlength
                  obtain ⟨t', u', rfl, rfl, hright⟩ := h.singleton hlength
                  exact equal_keeps hleft hright s s'
              | _ => cases hspecial
          | between =>
              have hlength := Operation.eq_of_admits rfl hcount
              obtain ⟨t, u, ts, us, rfl, rfl, hvalue, h, hlength⟩ := h.uncons hlength
              obtain ⟨t', u', ts, us, rfl, rfl, hlower, h, hlength⟩ := h.uncons hlength
              obtain ⟨t'', u'', rfl, rfl, hupper⟩ := h.singleton hlength
              exact between_keeps hvalue hlower hupper s s'
          | or =>
              obtain ⟨hts, hus⟩ := h.ne_nil (by simpa [Operation.admits, Operation.operands] using hcount)
              rw [value_or hts, value_or hus]
              exact Eval.Keeps.ofTruth (anyHolds_keeps h)
          | and =>
              obtain ⟨hts, hus⟩ := h.ne_nil (by simpa [Operation.admits, Operation.operands] using hcount)
              rw [value_and hts, value_and hus]
              exact Eval.Keeps.ofTruth (allHold_keeps h)
          | isIn =>
              cases h with
              | nil => cases hcount
              | @cons c c' items items' hfirst hrest =>
                  obtain ⟨hitems, hitems'⟩ := KeptValues.ne_nil hrest
                    (by simpa [Operation.admits, Operation.operands] using hcount)
                  exact isIn_keeps hitems hitems' hfirst (fun v _ => anyHas_keeps v hrest) s s'
          | subselect => cases hcompound
          | path => cases hcompound
          | _ => cases hspecial

end Expression

end RowGuard
