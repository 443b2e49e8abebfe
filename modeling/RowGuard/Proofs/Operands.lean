import Mathlib.Data.List.Forall2
import RowGuard.Proofs.Assignments

/-!
# Operands

An operation has a value exactly if each of its operands has one and the operation gives the
value for them.  Comparisons and functions are told by that from what they do with values, and
conjunctions of conditions that are all decided from the decisions.
-/

namespace RowGuard

open Query (Comparison Label Phrase)

theorem Eval.outcome_bind {α β : Type} (x : Eval α) (f : α → Eval β) :
    (x >>= f).run.outcome =
      x.run.outcome >>= fun a? => a?.elim (.ok none) fun a => (f a).run.outcome := by
  rw [OptionT.run_bind, Option.elimM, Traced.outcome_bind]
  apply congrArg (_ >>= ·)
  funext a?
  cases a? <;> rfl

theorem Eval.outcome_bind_of_ok {α β : Type} {x : Eval α} {a : α}
    (h : x.run.outcome = .ok (some a)) (f : α → Eval β) :
    (x >>= f).run.outcome = (f a).run.outcome := by
  rw [outcome_bind, h]
  rfl

theorem Eval.outcome_bind_eq_ok {α β : Type} {x : Eval α} {f : α → Eval β} {b : β} :
    (x >>= f).run.outcome = .ok (some b) ↔
      ∃ a, x.run.outcome = .ok (some a) ∧ (f a).run.outcome = .ok (some b) := by
  refine ⟨Eval.exists_of_bind, ?_⟩
  rintro ⟨a, ha, hb⟩
  rw [outcome_bind_of_ok ha, hb]

namespace Expression

variable {ev : Evaluator} {sub : Phrase → Eval Value} {env : Environment} {c : Phrase}
  {cs : List Phrase} {v : Value} {vs : List Value}

theorem outcome_values_eq_ok : (values ev sub env cs).run.outcome = .ok (some vs) ↔
    List.Forall₂ (fun c v => (value ev sub env c).run.outcome = .ok (some v)) cs vs := by
  induction cs generalizing vs with
  | nil =>
      rw [List.forall₂_nil_left_iff, values]
      exact ⟨fun h => (Option.some.inj (Except.ok.inj h)).symm, fun h => h ▸ rfl⟩
  | cons c cs ih =>
      rw [values, Eval.outcome_bind_eq_ok, List.forall₂_cons_left_iff]
      refine exists_congr fun v => ?_
      rw [Eval.outcome_bind_eq_ok]
      constructor
      · rintro ⟨hv, rest, hrest, h⟩
        obtain rfl := Option.some.inj (Except.ok.inj h)
        exact ⟨rest, hv, ih.mp hrest, rfl⟩
      · rintro ⟨rest, hv, hrest, rfl⟩
        exact ⟨hv, rest, ih.mpr hrest, rfl⟩

theorem isCompound_of_isOperation {l : Label} (h : Operation.isOperation l) :
    l.isCompound ∧ isSpecial l = false := by
  cases l with
  | compare op => cases op <;> first | exact ⟨rfl, rfl⟩ | cases h
  | _ => first | exact ⟨rfl, rfl⟩ | cases h

/-- An operation has a value if its operands have some that it gives this value for. -/
theorem outcome_operation_eq_ok {l : Label} (hoperation : Operation.isOperation l)
    (hcount : Operation.admits l cs.length) (s : Source.Span) :
    (value ev sub env (.node l cs s)).run.outcome = .ok (some v) ↔
      ∃ vs, List.Forall₂ (fun c v => (value ev sub env c).run.outcome = .ok (some v)) cs vs ∧
        Operation.apply ev.world l vs = .ok (some v) := by
  obtain ⟨hcompound, hspecial⟩ := isCompound_of_isOperation hoperation
  rw [value_of_admits hcompound hspecial hcount, if_pos hoperation, Eval.outcome_bind_eq_ok]
  simp only [outcome_values_eq_ok]
  rfl

/-- A comparison with an operand whose value is known is a matter of the other one. -/
theorem outcome_compare {x t : Phrase} (ht : (value ev sub env t).run.outcome = .ok (some v))
    (op : Comparison) (s : Source.Span) :
    (value ev sub env (.node (.compare op) [x, t] s)).run.outcome =
      (value ev sub env x).run.outcome >>= fun u? =>
        u?.elim (.ok none) fun u => Operation.compare ev.world op u v := by
  suffices hsteps : ∃ f, value ev sub env (.node (.compare op) [x, t] s) =
      value ev sub env x >>= f ∧ ∀ u, (f u).run.outcome = Operation.compare ev.world op u v by
    obtain ⟨f, heq, hf⟩ := hsteps
    simp only [heq, Eval.outcome_bind, hf]
  by_cases hop : op = .equal
  · subst hop
    refine ⟨_, value_equal x t s, fun u => ?_⟩
    -- Beside a null operand the other one is not looked at.
    cases hnull : u.isNull with
    | true => simp [Operation.compare, hnull, Operation.giveTruth, Arithmetic.give]
    | false => exact Eval.outcome_bind_of_ok ht _
  · refine ⟨fun u => value ev sub env t >>= fun w =>
      Eval.ofOutcome (Operation.compare ev.world op u w), ?_, fun u =>
        Eval.outcome_bind_of_ok ht _⟩
    calc
      value ev sub env (.node (.compare op) [x, t] s)
        = values ev sub env [x, t] >>= fun vs =>
            Eval.ofOutcome (Operation.apply ev.world (.compare op) vs) := by
          cases op with
          | equal => exact absurd rfl hop
          | _ => exact value_of_admits rfl rfl rfl s
      _ = value ev sub env x >>= fun u => value ev sub env t >>= fun w =>
            Eval.ofOutcome (Operation.compare ev.world op u w) := by
          simp [values, Operation.apply]

theorem truthOf_of_boolean {b : Bool}
    (h : (value ev sub env c).run.outcome = .ok (some (.boolean b))) :
    (truthOf ev sub env c).outcome = .ok (some b) := by
  rw [truthOf, Traced.outcome_bind, h]
  rfl

/-- A conjunction of conditions that are all decided. -/
theorem outcome_allHold {bs : List Bool}
    (h : List.Forall₂ (fun c b => (truthOf ev sub env c).outcome = .ok (some b)) cs bs) :
    (allHold ev sub env cs).outcome = .ok (some (bs.all id)) := by
  induction h with
  | nil => rfl
  | @cons c b cs bs hc _ ih =>
      rw [allHold_cons, Traced.outcome_bind, hc]
      cases b with
      | false => rfl
      | true => exact ih

end Expression

namespace Evaluator

variable {ev : Evaluator} {n : Nat} {env : Environment}

/-- An operation where some nesting is left. -/
theorem outcome_operation_eq_ok {l : Label} (hoperation : Operation.isOperation l)
    {cs : List Phrase} (hcount : Operation.admits l cs.length) {v : Value} (s : Source.Span) :
    (ev.valueAt n env (.node l cs s)).run.outcome = .ok (some v) ↔
      ∃ vs, List.Forall₂ (fun c v => (ev.valueAt n env c).run.outcome = .ok (some v)) cs vs ∧
        Operation.apply ev.world l vs = .ok (some v) := by
  simp only [valueAt_eq]
  exact Expression.outcome_operation_eq_ok hoperation hcount s

theorem outcome_binary_eq_ok {l : Label} (hoperation : Operation.isOperation l)
    (hcount : Operation.admits l 2) {x y : Phrase} {v : Value} (s : Source.Span) :
    (ev.valueAt n env (.node l [x, y] s)).run.outcome = .ok (some v) ↔
      ∃ a b, (ev.valueAt n env x).run.outcome = .ok (some a) ∧
        (ev.valueAt n env y).run.outcome = .ok (some b) ∧
        Operation.apply ev.world l [a, b] = .ok (some v) := by
  rw [outcome_operation_eq_ok hoperation (show Operation.admits l [x, y].length from hcount)]
  constructor
  · rintro ⟨_, _ | ⟨ha, _ | ⟨hb, _ | _⟩⟩, happly⟩
    exact ⟨_, _, ha, hb, happly⟩
  · rintro ⟨a, b, ha, hb, happly⟩
    exact ⟨_, .cons ha (.cons hb .nil), happly⟩

theorem outcome_ternary_eq_ok {l : Label} (hoperation : Operation.isOperation l)
    (hcount : Operation.admits l 3) {x y z : Phrase} {v : Value} (s : Source.Span) :
    (ev.valueAt n env (.node l [x, y, z] s)).run.outcome = .ok (some v) ↔
      ∃ a b c, (ev.valueAt n env x).run.outcome = .ok (some a) ∧
        (ev.valueAt n env y).run.outcome = .ok (some b) ∧
        (ev.valueAt n env z).run.outcome = .ok (some c) ∧
        Operation.apply ev.world l [a, b, c] = .ok (some v) := by
  rw [outcome_operation_eq_ok hoperation
    (show Operation.admits l [x, y, z].length from hcount)]
  constructor
  · rintro ⟨_, _ | ⟨ha, _ | ⟨hb, _ | ⟨hc, _ | _⟩⟩⟩, happly⟩
    exact ⟨_, _, _, ha, hb, hc, happly⟩
  · rintro ⟨a, b, c, ha, hb, hc, happly⟩
    exact ⟨_, .cons ha (.cons hb (.cons hc .nil)), happly⟩

/-- A comparison with an operand whose value is known, whatever nesting is left. -/
theorem outcome_compare {t : Phrase} {v : Value}
    (ht : (ev.valueAt n env t).run.outcome = .ok (some v)) (op : Comparison) (x : Phrase)
    (s : Source.Span) :
    (ev.valueAt n env (.node (.compare op) [x, t] s)).run.outcome =
      (ev.valueAt n env x).run.outcome >>= fun u? =>
        u?.elim (.ok none) fun u => Operation.compare ev.world op u v := by
  rw [valueAt_eq] at ht
  rw [valueAt_eq, valueAt_eq]
  exact Expression.outcome_compare ht op s

theorem outcome_and_of_boolean {x y : Phrase} {p q : Bool}
    (hx : (ev.valueAt n env x).run.outcome = .ok (some (.boolean p)))
    (hy : (ev.valueAt n env y).run.outcome = .ok (some (.boolean q))) (s : Source.Span) :
    (ev.valueAt n env (.node .and [x, y] s)).run.outcome = .ok (some (.boolean (p && q))) := by
  rw [valueAt_eq] at hx hy ⊢
  have hall := Expression.outcome_allHold
    (.cons (Expression.truthOf_of_boolean hx) (.cons (Expression.truthOf_of_boolean hy) .nil))
  rw [Expression.value_and (by simp)]
  show (_ >>= fun b : Option Bool => pure (b.map Value.boolean) : Traced _).outcome = _
  rw [Traced.outcome_bind, hall, List.all_cons, List.all_cons, List.all_nil, Bool.and_true]
  rfl

end Evaluator

end RowGuard
