import RowGuard.Proofs.Numbers

/-!
# Calculations with numbers in any form

The value of an expression depends on the values of its operands only.  So when operands are
replaced by others whose values are alike, numbers of any form for the same numbers, the value
stays alike, and what is undefined or a fault stays so; comparisons come to the very same truth.
This is shown for the operations on values and carried over to expressions, among them those that
do not evaluate all operands.
-/

namespace RowGuard

open Query (ArithmeticOperator Comparison Label Phrase)
open Outcome (Parallels)

/-! ## Comparisons and memberships -/

section Values

variable {a a' b b' c c' : Value} {a? a'? b? b'? : Option Value}

theorem Operation.compare_alike (w : World) (op : Comparison) (ha : a.Alike a')
    (hb : b.Alike b') : compare w op a b = compare w op a' b' := by
  unfold compare
  rw [ha.isNull, hb.isNull, ha.same w hb, ha.compare? hb]

theorem Operation.isBetween_alike (hc : c.Alike c') (ha : Option.Rel Value.Alike a? a'?)
    (hb : Option.Rel Value.Alike b? b'?) : isBetween c a? b? = isBetween c' a'? b'? := by
  have hcompare : ∀ {o o' : Option Value}, Option.Rel Value.Alike o o' →
      o.bind c.compare? = o'.bind c'.compare? := by
    rintro _ _ (h | _)
    · exact hc.compare? h
    · rfl
  unfold isBetween
  rw [hcompare ha, hcompare hb]

/-- Values whose elements are alike, one by one. -/
def Value.HoldAlike (a b : Value) : Prop := List.Forall₂ Value.Alike a.items b.items

theorem Value.Alike.holdAlike (h : a.Alike b) : a.HoldAlike b := by
  cases h with
  | refl => exact List.forall₂_same.mpr fun v _ => .refl v
  | numbers ha hb =>
      obtain ⟨m, rfl, -⟩ | ⟨x, rfl, -⟩ := Value.eq_of_number ha <;>
      obtain ⟨n, rfl, -⟩ | ⟨y, rfl, -⟩ := Value.eq_of_number hb <;>
      exact .cons (.numbers ha hb) .nil

theorem World.member_alike (w : World) (hc : c.Alike c') {vs vs' : List Value}
    (h : List.Forall₂ Value.Alike vs vs') : w.member c vs = w.member c' vs' := by
  induction h with
  | nil => rfl
  | cons hfirst _ ih =>
      rw [World.member, World.member, List.any_cons, List.any_cons, hc.same w hfirst]
      exact congrArg _ ih

end Values

/-! ## Evaluations -/

/-- Evaluations with results that are alike, or with none. -/
def Eval.Alike (x y : Eval Value) : Prop := Parallels Value.Alike x.run.outcome y.run.outcome

theorem Outcome.Parallels.mono {α β : Type} {R S : α → β → Prop}
    {r : Except Fault (Option α)} {r' : Except Fault (Option β)} (h : Parallels R r r')
    (hRS : ∀ a b, R a b → S a b) : Parallels S r r' := by
  cases h with
  | fault e => exact .fault e
  | undefined => exact .undefined
  | value hab => exact .value (hRS _ _ hab)

theorem Eval.Alike.holdAlike {x y : Eval Value} (h : x.Alike y) :
    Parallels Value.HoldAlike x.run.outcome y.run.outcome :=
  h.mono fun _ _ => Value.Alike.holdAlike

theorem Outcome.Parallels.bind_eq {α β γ : Type} {R : α → β → Prop}
    {r : Except Fault (Option α)} {r' : Except Fault (Option β)} (h : Parallels R r r')
    {f : Option α → Except Fault γ} {g : Option β → Except Fault γ}
    (hnext : ∀ a? b?, Option.Rel R a? b? → f a? = g b?) : r >>= f = r' >>= g := by
  cases h with
  | fault e => rfl
  | undefined => exact hnext _ _ .none
  | value hab => exact hnext _ _ (.some hab)

theorem Outcome.Parallels.eq {α : Type} {r r' : Except Fault (Option α)}
    (h : Parallels Eq r r') : r = r' := by
  cases h with
  | value hab => rw [hab]
  | _ => rfl

namespace Expression

variable {ev : Evaluator} {sub : Phrase → Eval Value} {env : Environment}
  {p p' q q' r r' : Phrase} {cs cs' : List Phrase}

/-- Expressions of which each has the value of its counterpart, in some form. -/
abbrev AlikeValues (ev : Evaluator) (sub : Phrase → Eval Value) (env : Environment) :
    List Phrase → List Phrase → Prop :=
  List.Forall₂ fun p p' => (value ev sub env p).Alike (value ev sub env p')

theorem values_alike (h : AlikeValues ev sub env cs cs') :
    Parallels (List.Forall₂ Value.Alike) (values ev sub env cs).run.outcome
      (values ev sub env cs').run.outcome := by
  induction h with
  | nil => exact .value .nil
  | cons hfirst _ ih =>
      rw [values, values]
      refine Eval.parallels_bind hfirst fun v v' _ _ hv => ?_
      exact Eval.parallels_bind ih fun vs vs' _ _ hvs => .value (.cons hv hvs)

section Operations

variable {S : Value → Value → Prop} {l : Label} (hoperation : Operation.isOperation l)

include hoperation

/-- Operations on operands that are alike are a matter of the values. -/
theorem operation_parallels (hcount : Operation.admits l cs.length)
    (h : AlikeValues ev sub env cs cs')
    (happly : ∀ vs vs',
      List.Forall₂ (fun c v => (value ev sub env c).run.outcome = .ok (some v)) cs vs →
      List.Forall₂ (fun c v => (value ev sub env c).run.outcome = .ok (some v)) cs' vs' →
      List.Forall₂ Value.Alike vs vs' →
      Parallels S (Operation.apply ev.world l vs) (Operation.apply ev.world l vs'))
    (s s' : Source.Span) :
    Parallels S (value ev sub env (.node l cs s)).run.outcome
      (value ev sub env (.node l cs' s')).run.outcome := by
  obtain ⟨hcompound, hspecial⟩ := isCompound_of_isOperation hoperation
  rw [value_of_admits hcompound hspecial hcount,
    value_of_admits hcompound hspecial (h.length_eq ▸ hcount), if_pos hoperation,
    if_pos hoperation]
  exact Eval.parallels_bind (values_alike h) fun vs vs' hvs hvs' =>
    happly vs vs' (outcome_values_eq_ok.mp hvs) (outcome_values_eq_ok.mp hvs')

theorem unary_parallels (hcount : Operation.admits l 1)
    (hp : (value ev sub env p).Alike (value ev sub env p'))
    (happly : ∀ a a', (value ev sub env p).run.outcome = .ok (some a) →
      (value ev sub env p').run.outcome = .ok (some a') → a.Alike a' →
      Parallels S (Operation.apply ev.world l [a]) (Operation.apply ev.world l [a']))
    (s s' : Source.Span) :
    Parallels S (value ev sub env (.node l [p] s)).run.outcome
      (value ev sub env (.node l [p'] s')).run.outcome := by
  refine operation_parallels hoperation (show Operation.admits l [p].length from hcount)
    (.cons hp .nil) ?_ s s'
  rintro _ _ (_ | ⟨ha, _ | _⟩) (_ | ⟨ha', _ | _⟩) (_ | ⟨halike, -⟩)
  exact happly _ _ ha ha' halike

theorem binary_parallels (hcount : Operation.admits l 2)
    (hp : (value ev sub env p).Alike (value ev sub env p'))
    (hq : (value ev sub env q).Alike (value ev sub env q'))
    (happly : ∀ a a' b b', (value ev sub env p).run.outcome = .ok (some a) →
      (value ev sub env p').run.outcome = .ok (some a') →
      (value ev sub env q).run.outcome = .ok (some b) →
      (value ev sub env q').run.outcome = .ok (some b') → a.Alike a' → b.Alike b' →
      Parallels S (Operation.apply ev.world l [a, b]) (Operation.apply ev.world l [a', b']))
    (s s' : Source.Span) :
    Parallels S (value ev sub env (.node l [p, q] s)).run.outcome
      (value ev sub env (.node l [p', q'] s')).run.outcome := by
  refine operation_parallels hoperation (show Operation.admits l [p, q].length from hcount)
    (.cons hp (.cons hq .nil)) ?_ s s'
  rintro _ _ (_ | ⟨ha, _ | ⟨hb, _ | _⟩⟩) (_ | ⟨ha', _ | ⟨hb', _ | _⟩⟩)
    (_ | ⟨halike, _ | ⟨halike', -⟩⟩)
  exact happly _ _ _ _ ha ha' hb hb' halike halike'

end Operations

theorem outcome_compare_alike (op : Comparison)
    (hp : (value ev sub env p).Alike (value ev sub env p'))
    (hq : (value ev sub env q).Alike (value ev sub env q')) (s s' : Source.Span) :
    (value ev sub env (.node (.compare op) [p, q] s)).run.outcome =
      (value ev sub env (.node (.compare op) [p', q'] s')).run.outcome := by
  apply Parallels.eq
  by_cases hop : op = .equal
  · -- Equality asks for the right operand only if the left one is not null.
    subst hop
    rw [value_equal, value_equal]
    refine Eval.parallels_bind hp fun a a' _ _ ha => ?_
    rw [ha.isNull]
    split
    · exact .refl (fun _ => rfl) _
    · refine Eval.parallels_bind hq fun b b' _ _ hb => ?_
      rw [Operation.compare_alike ev.world .equal ha hb]
      exact .refl (fun _ => rfl) _
  · have hoperation : Operation.isOperation (.compare op) := by
      cases op <;> first | rfl | exact absurd rfl hop
    refine binary_parallels hoperation rfl hp hq (fun a a' b b' _ _ _ _ ha hb => ?_) s s'
    show Parallels Eq (Operation.compare ev.world op a b) (Operation.compare ev.world op a' b')
    rw [Operation.compare_alike ev.world op ha hb]
    exact .refl (fun _ => rfl) _

theorem outcome_ofTruth (x : Traced (Option Bool)) : (Eval.ofTruth x).run.outcome =
    x.outcome >>= fun b => .ok (b.map Value.boolean) :=
  Traced.outcome_bind x _

theorem outcome_between_alike
    (hp : (value ev sub env p).Alike (value ev sub env p'))
    (hq : (value ev sub env q).Alike (value ev sub env q'))
    (hr : (value ev sub env r).Alike (value ev sub env r')) (s s' : Source.Span) :
    (value ev sub env (.node .between [p, q, r] s)).run.outcome =
      (value ev sub env (.node .between [p', q', r'] s')).run.outcome := by
  apply Parallels.eq
  rw [value_between, value_between]
  refine Eval.parallels_bind hp fun a a' _ _ ha => ?_
  rw [ha.isNull]
  split
  · exact .refl (fun _ => rfl) _
  · have hupper : ∀ low low', Option.Rel Value.Alike low low' →
        ((value ev sub env r).run >>= fun high =>
          pure (Operation.isBetween a low high) : Traced (Option Bool)).outcome =
        ((value ev sub env r').run >>= fun high =>
          pure (Operation.isBetween a' low' high) : Traced (Option Bool)).outcome := by
      intro low low' hlow
      rw [Traced.outcome_bind, Traced.outcome_bind]
      exact Parallels.bind_eq hr fun high high' hhigh =>
        congrArg Except.ok (Operation.isBetween_alike ha hlow hhigh)
    rw [outcome_ofTruth, outcome_ofTruth, Traced.outcome_bind, Traced.outcome_bind,
      Parallels.bind_eq hq hupper]
    exact .refl (fun _ => rfl) _

theorem outcome_anyHas_alike {v v' : Value} (hv : v.Alike v')
    (h : List.Forall₂ (fun p p' => Parallels Value.HoldAlike (value ev sub env p).run.outcome
      (value ev sub env p').run.outcome) cs cs') :
    (anyHas ev sub env v cs).outcome = (anyHas ev sub env v' cs').outcome := by
  induction h with
  | nil => rfl
  | @cons c c' cs cs' hfirst _ ih =>
      rw [anyHas, anyHas, Traced.outcome_bind, Traced.outcome_bind]
      refine Parallels.bind_eq hfirst ?_
      rintro _ _ (hfound | _)
      · simp only [ev.world.member_alike hv hfound]
        split
        · rfl
        · exact ih
      · simp only [Traced.outcome_bind, ih]

theorem outcome_isIn_alike (hp : (value ev sub env p).Alike (value ev sub env p'))
    (h : List.Forall₂ (fun p p' => Parallels Value.HoldAlike (value ev sub env p).run.outcome
      (value ev sub env p').run.outcome) cs cs') (s s' : Source.Span) :
    (value ev sub env (.node .isIn (p :: cs) s)).run.outcome =
      (value ev sub env (.node .isIn (p' :: cs') s')).run.outcome := by
  cases h with
  | nil => rfl
  | cons hfirst hrest =>
      apply Parallels.eq
      rw [value_isIn p (by simp), value_isIn p' (by simp)]
      refine Eval.parallels_bind hp fun a a' _ _ ha => ?_
      rw [ha.isNull]
      split
      · exact .refl (fun _ => rfl) _
      · rw [outcome_ofTruth, outcome_ofTruth, outcome_anyHas_alike ha (.cons hfirst hrest)]
        exact .refl (fun _ => rfl) _

/-- An operation on operands that have values. -/
theorem outcome_operation {l : Label} (hoperation : Operation.isOperation l)
    (hcount : Operation.admits l cs.length) {vs : List Value}
    (h : List.Forall₂ (fun c v => (value ev sub env c).run.outcome = .ok (some v)) cs vs)
    (s : Source.Span) :
    (value ev sub env (.node l cs s)).run.outcome = Operation.apply ev.world l vs := by
  obtain ⟨hcompound, hspecial⟩ := isCompound_of_isOperation hoperation
  rw [value_of_admits hcompound hspecial hcount, if_pos hoperation]
  exact Eval.outcome_bind_of_ok (outcome_values_eq_ok.mpr h) _

end Expression

/-! ## Numbers in any form -/

/-- An evaluation that comes to a value. -/
def Eval.Gives (x : Eval Value) (v : Value) : Prop := x.run.outcome = .ok (some v)

theorem Eval.Gives.eq {x : Eval Value} {a b : Value} (ha : x.Gives a) (hb : x.Gives b) : a = b :=
  Option.some.inj (Except.ok.inj (ha.symm.trans hb))

theorem Eval.Gives.alike {x y : Eval Value} {a b : Value} (hx : x.Gives a) (hy : y.Gives b)
    (h : a.Alike b) : x.Alike y := by
  unfold Eval.Gives at hx hy
  rw [Eval.Alike, hx, hy]
  exact .value h

/-- Integers do not overflow: an operation gives the number that is asked for, as an integer where
one can hold it.  From other numbers comes the exact result, rounded.  A remainder has the sign of
the dividend; dividing by zero is undefined. -/
structure Evaluator.CountsExactly (f : Phrase → Eval Value) : Prop where
  arithmetic {p q : Phrase} {a b : Int64} (hp : (f p).Gives (.integer a))
    (hq : (f q).Gives (.integer b)) {op : ArithmeticOperator} (hop : op ≠ .divide)
    (s : Source.Span) : ∃ v, (f (.node (.arithmetic op) [p, q] s)).Gives v ∧
      v.IsWhole (Arithmetic.exact op a.toInt b.toInt)
  rounds {p q : Phrase} {a b : Value} {x y : ℚ} (hp : (f p).Gives a) (hq : (f q).Gives b)
    (ha : a.number? = some x) (hb : b.number? = some y) {op : ArithmeticOperator}
    (hop : op ≠ .divide) (s : Source.Span) : ∃ v, (f (.node (.arithmetic op) [p, q] s)).Gives v ∧
      v.number? = some (rounded (Arithmetic.exact op x y))
  negative {p : Phrase} {a : Int64} (hp : (f p).Gives (.integer a)) (s : Source.Span) :
    ∃ v, (f (.node .negative [p] s)).Gives v ∧ v.IsWhole (-a.toInt)
  abs {p : Phrase} {a : Int64} (hp : (f p).Gives (.integer a)) (s : Source.Span) :
    ∃ v, (f (.node .abs [p] s)).Gives v ∧ v.IsWhole |a.toInt|
  mod {p q : Phrase} {a b : Int64} (hp : (f p).Gives (.integer a))
    (hq : (f q).Gives (.integer b)) (hb : b ≠ 0) (s : Source.Span) :
    ∃ m : Int64, (f (.node .mod [p, q] s)).Gives (.integer m) ∧
      (∃ k, a.toInt = b.toInt * k + m.toInt) ∧ |m.toInt| < |b.toInt| ∧
      (m.toInt = 0 ∨ m.toInt.sign = a.toInt.sign)
  zero {p q : Phrase} {a b : Value} {x : ℚ} (hp : (f p).Gives a) (hq : (f q).Gives b)
    (ha : a.number? = some x) (hb : b.number? = some 0) (s : Source.Span) :
    (f (.node (.arithmetic .divide) [p, q] s)).run.outcome = .ok none ∧
      (f (.node .mod [p, q] s)).run.outcome = .ok none

/-- The form of a number makes no difference: operands that are alike have results that are
alike, and comparisons of them have the same results.  Quotients and roots are taken as far as
they are the exact ones, rounded. -/
structure Evaluator.IgnoresForms (f : Phrase → Eval Value) : Prop where
  arithmetic {p p' q q' : Phrase} (hp : (f p).Alike (f p')) (hq : (f q).Alike (f q'))
    {op : ArithmeticOperator} (hop : op ≠ .divide) (s s' : Source.Span) :
    (f (.node (.arithmetic op) [p, q] s)).Alike (f (.node (.arithmetic op) [p', q'] s'))
  divide {p p' q q' : Phrase} (hp : (f p).Alike (f p')) (hq : (f q).Alike (f q'))
    (hround : ∀ a b, (f p).Gives a → (f q).Gives b → Arithmetic.QuotientRounds a b)
    (hround' : ∀ a b, (f p').Gives a → (f q').Gives b → Arithmetic.QuotientRounds a b)
    (s s' : Source.Span) :
    (f (.node (.arithmetic .divide) [p, q] s)).Alike (f (.node (.arithmetic .divide) [p', q'] s'))
  mod {p p' q q' : Phrase} (hp : (f p).Alike (f p')) (hq : (f q).Alike (f q'))
    (s s' : Source.Span) : (f (.node .mod [p, q] s)).Alike (f (.node .mod [p', q'] s'))
  negative {p p' : Phrase} (hp : (f p).Alike (f p')) (s s' : Source.Span) :
    (f (.node .negative [p] s)).Alike (f (.node .negative [p'] s'))
  abs {p p' : Phrase} (hp : (f p).Alike (f p')) (s s' : Source.Span) :
    (f (.node .abs [p] s)).Alike (f (.node .abs [p'] s'))
  sqrt {p p' : Phrase} (hp : (f p).Alike (f p'))
    (hround : ∀ a, (f p).Gives a → Arithmetic.RootRounds a)
    (hround' : ∀ a, (f p').Gives a → Arithmetic.RootRounds a) (s s' : Source.Span) :
    (f (.node .sqrt [p] s)).Alike (f (.node .sqrt [p'] s'))
  compare {p p' q q' : Phrase} (hp : (f p).Alike (f p')) (hq : (f q).Alike (f q'))
    (op : Comparison) (s s' : Source.Span) :
    (f (.node (.compare op) [p, q] s)).run.outcome =
      (f (.node (.compare op) [p', q'] s')).run.outcome
  between {p p' q q' r r' : Phrase} (hp : (f p).Alike (f p')) (hq : (f q).Alike (f q'))
    (hr : (f r).Alike (f r')) (s s' : Source.Span) :
    (f (.node .between [p, q, r] s)).run.outcome =
      (f (.node .between [p', q', r'] s')).run.outcome
  isIn {p p' : Phrase} {cs cs' : List Phrase} (hp : (f p).Alike (f p'))
    (hcs : List.Forall₂ (fun c c' =>
      Parallels Value.HoldAlike (f c).run.outcome (f c').run.outcome) cs cs')
    (s s' : Source.Span) :
    (f (.node .isIn (p :: cs) s)).run.outcome = (f (.node .isIn (p' :: cs') s')).run.outcome

open Evaluator (CountsExactly IgnoresForms)

namespace Expression

variable (ev : Evaluator) (sub : Phrase → Eval Value) (env : Environment)

theorem countsExactly : CountsExactly (value ev sub env) where
  arithmetic {p q a b} hp hq op hop s := by
    obtain ⟨v, hv, hwhole⟩ := Arithmetic.binary_integers ev.world hop a b
    exact ⟨v, (outcome_operation rfl rfl (.cons hp (.cons hq .nil)) s).trans hv, hwhole⟩
  rounds {p q a b x y} hp hq ha hb op hop s := by
    obtain ⟨v, hv, hnumber⟩ := Arithmetic.binary_numbers ev.world hop ha hb
    exact ⟨v, (outcome_operation rfl rfl (.cons hp (.cons hq .nil)) s).trans hv, hnumber⟩
  negative {p a} hp s :=
    ⟨_, outcome_operation rfl rfl (.cons hp .nil) s, Value.isWhole_ofInt _⟩
  abs {p a} hp s := by
    refine ⟨_, outcome_operation rfl rfl (.cons hp .nil) s, ?_⟩
    rw [Int.abs_eq_natAbs]
    exact Value.isWhole_ofInt _
  mod {p q a b} hp hq hb s := by
    obtain ⟨m, hm, htmod⟩ := Arithmetic.modulo_integers ev.world a hb
    refine ⟨m, (outcome_operation rfl rfl (.cons hp (.cons hq .nil)) s).trans hm, ?_⟩
    rw [htmod]
    exact ⟨⟨_, (Int.mul_tdiv_add_tmod _ _).symm⟩, abs_tmod_lt fun h => hb (Int64.toInt_inj.mp h),
      sign_tmod _ _⟩
  zero {p q a b x} hp hq ha hb s := by
    rw [outcome_operation rfl rfl (.cons hp (.cons hq .nil)) s,
      outcome_operation rfl rfl (.cons hp (.cons hq .nil)) s]
    exact ⟨Arithmetic.divide_by_zero ev.world ha hb, Arithmetic.modulo_by_zero ev.world ha hb⟩

theorem ignoresForms : IgnoresForms (value ev sub env) where
  arithmetic hp hq _ hop s s' :=
    binary_parallels rfl rfl hp hq
      (fun _ _ _ _ _ _ _ _ ha hb => Arithmetic.binary_alike ev.world hop ha hb) s s'
  divide hp hq hround hround' s s' :=
    binary_parallels rfl rfl hp hq (fun a a' b b' hpa hpa' hqb hqb' ha hb =>
      Arithmetic.divide_alike ev.world ha hb (hround a b hpa hqb) (hround' a' b' hpa' hqb')) s s'
  mod hp hq s s' :=
    binary_parallels rfl rfl hp hq
      (fun _ _ _ _ _ _ _ _ ha hb => Arithmetic.modulo_alike ev.world ha hb) s s'
  negative hp s s' :=
    unary_parallels rfl rfl hp (fun _ _ _ _ ha => Arithmetic.negate_alike ev.world ha) s s'
  abs hp s s' :=
    unary_parallels rfl rfl hp (fun _ _ _ _ ha => Arithmetic.abs_alike ev.world ha) s s'
  sqrt hp hround hround' s s' :=
    unary_parallels rfl rfl hp (fun a a' hpa hpa' ha =>
      Arithmetic.sqrt_alike ev.world ha (hround a hpa) (hround' a' hpa')) s s'
  compare hp hq op s s' := outcome_compare_alike op hp hq s s'
  between hp hq hr s s' := outcome_between_alike hp hq hr s s'
  isIn hp hcs s s' := outcome_isIn_alike hp hcs s s'

end Expression

/-- Numeric results do not depend on the form of the operands, and integers never overflow. -/
theorem Evaluator.numbers_do_not_depend_on_form (ev : Evaluator) (n : ℕ) (env : Environment) :
    CountsExactly (ev.valueAt n env) ∧ IgnoresForms (ev.valueAt n env) := by
  rw [show ev.valueAt n env = Expression.value ev (ev.subselectAt env n) env from
    funext (valueAt_eq ev n env)]
  exact ⟨Expression.countsExactly ev _ env, Expression.ignoresForms ev _ env⟩

/-- The root of a square, if it is found, is not rounded. -/
theorem Arithmetic.rootRounds_of_square {a : Value} {d : Decimal} {k : ℕ}
    (hd : a.toDecimal? = some d) (hk : k ≤ 10 ^ Decimal.precision)
    (hsquare : d.same (.ofInt (k ^ 2))) (hroot : d.sqrt?.all (Decimal.same · (.ofInt k))) :
    RootRounds a := by
  intro d' r hd' hr
  obtain rfl := Option.some.inj (hd.symm.trans hd')
  rw [hr, Option.all_some, Decimal.same_iff, Decimal.toRat_ofInt] at hroot
  rw [Decimal.same_iff, Decimal.toRat_ofInt] at hsquare
  rw [hroot, hsquare]
  push_cast
  rw [Real.sqrt_sq (Nat.cast_nonneg k)]
  exact_mod_cast (rounded_intCast (K := ℝ) (n := k) hk).symm

namespace Evaluator

/-- Parameters for a number in two forms and for the greatest integer. -/
def measures : Environment where
  named := [("n", .integer 4), ("d", .decimal ⟨40, 1⟩), ("max", .integer Int64.maxValue)]
  now := default

/-- Behind the greatest integer come decimals, and 4 and 4.0 have one quotient and one root. -/
theorem numbers_do_not_depend_on_form_four : ∃ p p' q : Phrase,
    (folderEvaluator.valueAt 0 measures p).Gives (.integer 4) ∧
    (folderEvaluator.valueAt 0 measures p').Gives (.decimal ⟨40, 1⟩) ∧
    (folderEvaluator.valueAt 0 measures q).Gives (.integer Int64.maxValue) ∧
    ∀ s s' : Source.Span,
      (∃ v, (folderEvaluator.valueAt 0 measures (.node (.arithmetic .add) [q, p] s)).Gives v ∧
        v.IsWhole (2 ^ 63 + 3)) ∧
      (folderEvaluator.valueAt 0 measures (.node (.arithmetic .divide) [p, p] s)).Alike
        (folderEvaluator.valueAt 0 measures (.node (.arithmetic .divide) [p', p] s')) ∧
      (folderEvaluator.valueAt 0 measures (.node .sqrt [p] s)).Alike
        (folderEvaluator.valueAt 0 measures (.node .sqrt [p'] s')) ∧
      (folderEvaluator.valueAt 0 measures (.node .isIn [q, p] s)).run.outcome =
        (folderEvaluator.valueAt 0 measures (.node .isIn [q, p'] s')).run.outcome := by
  have hp : (folderEvaluator.valueAt 0 measures
      (.node (.namedParameter "n") [] .none)).Gives (.integer 4) := rfl
  have hp' : (folderEvaluator.valueAt 0 measures
      (.node (.namedParameter "d") [] .none)).Gives (.decimal ⟨40, 1⟩) := rfl
  have hq : (folderEvaluator.valueAt 0 measures
      (.node (.namedParameter "max") [] .none)).Gives (.integer Int64.maxValue) := rfl
  obtain ⟨hcounts, hignores⟩ := numbers_do_not_depend_on_form folderEvaluator 0 measures
  have hnumbers : (Value.integer 4).Alike (.decimal ⟨40, 1⟩) :=
    .numbers (Value.number?_integer 4) <| by
      rw [Value.number?_decimal, Option.some.injEq, ← Decimal.toRat_ofInt, ← Decimal.same_iff]
      decide +kernel
  have halike := hp.alike hp' hnumbers
  refine ⟨_, _, _, hp, hp', hq, fun s s' => ⟨hcounts.arithmetic hq hp (by decide) s, ?_, ?_,
    hignores.isIn (.refl .refl _) (.cons halike.holdAlike .nil) s s'⟩⟩
  · refine hignores.divide halike (.refl .refl _) ?_ ?_ s s'
    · intro a b ha _
      obtain rfl := hp.eq ha
      exact Arithmetic.quotientRounds_integer 4 b
    · intro a b ha _
      obtain rfl := hp'.eq ha
      exact Arithmetic.quotientRounds_of_digitCount_le rfl (by decide +kernel) b
  · refine hignores.sqrt halike (fun a ha => ?_) (fun a ha => ?_) s s'
    · obtain rfl := hp.eq ha
      exact Arithmetic.rootRounds_of_square (k := 2) rfl (by decide +kernel) (by decide +kernel)
        (by decide +kernel)
    · obtain rfl := hp'.eq ha
      exact Arithmetic.rootRounds_of_square (k := 2) rfl (by decide +kernel) (by decide +kernel)
        (by decide +kernel)

end Evaluator

end RowGuard
