import RowGuard.Proofs.Decimals
import RowGuard.Proofs.SelectLists
import RowGuard.Proofs.Operands

/-!
# The order of values

Comparing two values is comparing their ranks: truths, numbers, texts, moments and times of day,
each in an order of its own.  A date has the rank of its first moment.  Values without a rank, or
with ranks of two kinds, do not compare.  So the order turns around with its operands, and it goes
on from one pair of values to the next.  Equality follows it, except that no date is equal to a
timestamp, not even to its first moment.
-/

namespace RowGuard

open Query (Comparison Phrase)

/-! ## Dates and times -/

theorem Date.compare_eq_iff {a b : Date} : a.compare b = .eq ↔ a = b := by
  cases a
  cases b
  simp [compare]

theorem Time.compare_eq_iff {a b : Time} : a.compare b = .eq ↔ a = b := by
  cases a
  cases b
  simp [compare]

theorem Timestamp.compare_eq_iff {a b : Timestamp} : a.compare b = .eq ↔ a = b := by
  cases a
  cases b
  simp [compare, Date.compare_eq_iff, Time.compare_eq_iff]

/-- The first moments of two days are ordered like the days. -/
theorem Timestamp.compare_startOf (a b : Date) : (startOf a).compare (startOf b) = a.compare b := by
  have hmidnight : Time.compare .midnight .midnight = .eq := Time.compare_eq_iff.mpr rfl
  simp [compare, startOf, hmidnight]

instance : Ord Date := ⟨Date.compare⟩

instance : Ord Time := ⟨Time.compare⟩

instance : Ord Timestamp := ⟨Timestamp.compare⟩

instance : Std.TransOrd Date :=
  inferInstanceAs (Std.TransCmp (compareLex (compareOn Date.year)
    (compareLex (compareOn Date.month) (compareOn Date.day))))

instance : Std.TransOrd Time :=
  inferInstanceAs (Std.TransCmp (compareLex (compareOn Time.hour) (compareLex
    (compareOn Time.minute) (compareLex (compareOn Time.second) (compareOn Time.nanosecond)))))

instance : Std.TransOrd Timestamp :=
  inferInstanceAs (Std.TransCmp (compareLex (compareOn Timestamp.date) (compareOn Timestamp.time)))

instance : Std.LawfulEqOrd Time := ⟨Time.compare_eq_iff.mp⟩

instance : Std.LawfulEqOrd Timestamp := ⟨Timestamp.compare_eq_iff.mp⟩

/-! ## Ranks -/

/-- What values are ordered by. -/
inductive Rank where
  | truth (b : Bool)
  | number (q : ℚ)
  | text (s : String)
  | moment (t : Timestamp)
  | clock (t : Time)

namespace Rank

/-- Only ranks of one kind compare. -/
def compare? : Rank → Rank → Option Ordering
  | .truth a, .truth b => some (Ord.compare a b)
  | .number a, .number b => some (Ord.compare a b)
  | .text a, .text b => some (Ord.compare a b)
  | .moment a, .moment b => some (Ord.compare a b)
  | .clock a, .clock b => some (Ord.compare a b)
  | _, _ => none

theorem compare?_swap (x y : Rank) : y.compare? x = (x.compare? y).map Ordering.swap := by
  cases x <;> cases y <;>
    first | rfl | exact congrArg some Std.OrientedOrd.eq_swap

theorem compare_then {α : Type} [Ord α] [Std.TransOrd α] {a b c : α}
    (hab : (Ord.compare a b).isLE) (hbc : (Ord.compare b c).isLE) :
    Ord.compare a c = (Ord.compare a b).then (Ord.compare b c) := by
  cases ho : Ord.compare a b with
  | lt => exact Std.TransCmp.lt_of_lt_of_isLE ho hbc
  | eq => exact Std.TransCmp.congr_left ho
  | gt => simp [ho] at hab

theorem compare?_trans {x y z : Rank} {o o' : Ordering} (hxy : x.compare? y = some o)
    (hyz : y.compare? z = some o') (ho : o.isLE) (ho' : o'.isLE) :
    x.compare? z = some (o.then o') := by
  unfold compare? at hxy
  split at hxy <;> cases hxy <;> cases z <;> cases hyz <;>
    exact congrArg some (compare_then ho ho')

theorem compare?_eq_iff {x y : Rank} : x.compare? y = some .eq ↔ x = y := by
  cases x <;> cases y <;> simp [compare?]

end Rank

/-! ## Values -/

namespace Value

/-- The rank of a value.  A date has that of its first moment. -/
def rank? : Value → Option Rank
  | .boolean b => some (.truth b)
  | .string s => some (.text s)
  | .date d => some (.moment (Timestamp.startOf d))
  | .time t => some (.clock t)
  | .timestamp t => some (.moment t)
  | v => v.toDecimal?.map fun x => .number x.toRat

/-- Comparing values is comparing their ranks. -/
theorem compare?_eq (a b : Value) :
    a.compare? b = a.rank?.bind fun x => b.rank?.bind fun y => x.compare? y := by
  cases a <;> cases b <;>
    first
    | rfl
    | exact congrArg some (Timestamp.compare_startOf _ _).symm
    | simp [compare?, rank?, toDecimal?, Rank.compare?, Decimal.compare_eq]

theorem compare?_eq_some {a b : Value} {o : Ordering} : a.compare? b = some o ↔
    ∃ x y, a.rank? = some x ∧ b.rank? = some y ∧ x.compare? y = some o := by
  simp [compare?_eq, Option.bind_eq_some_iff]

theorem compare?_swap (a b : Value) : b.compare? a = (a.compare? b).map Ordering.swap := by
  rw [compare?_eq, compare?_eq]
  cases a.rank? with
  | none => cases b.rank? <;> rfl
  | some x =>
      cases b.rank? with
      | none => rfl
      | some y => exact Rank.compare?_swap x y

theorem compare?_trans {a b c : Value} {o o' : Ordering} (hab : a.compare? b = some o)
    (hbc : b.compare? c = some o') (ho : o.isLE) (ho' : o'.isLE) :
    a.compare? c = some (o.then o') := by
  obtain ⟨x, y, hx, hy, hxy⟩ := compare?_eq_some.mp hab
  obtain ⟨y', z, hy', hz, hyz⟩ := compare?_eq_some.mp hbc
  obtain rfl := Option.some.inj (hy.symm.trans hy')
  exact compare?_eq_some.mpr ⟨x, z, hx, hz, Rank.compare?_trans hxy hyz ho ho'⟩

/-- Whether one of two values is a date and the other one its first moment. -/
def isFirstMoment : Value → Value → Bool
  | .date d, .timestamp t => Timestamp.startOf d == t
  | .timestamp t, .date d => t == Timestamp.startOf d
  | _, _ => false

theorem isNull_of_rank? {v : Value} {x : Rank} (h : v.rank? = some x) : v.isNull = false := by
  cases v <;> first | rfl | cases h

/-- Values that have ranks are equal if the ranks are, except for a date and its first moment. -/
theorem same_iff_of_rank? (w : World) {a b : Value} {x y : Rank} (ha : a.rank? = some x)
    (hb : b.rank? = some y) : w.same a b ↔ x = y ∧ a.isFirstMoment b = false := by
  cases a <;> cases ha <;> cases b <;> cases hb <;>
    simp [World.same, agree, isFirstMoment, toDecimal?, Decimal.same_iff, Timestamp.startOf]

theorem same_iff_of_compare? (w : World) {a b : Value} {o : Ordering}
    (h : a.compare? b = some o) : w.same a b ↔ o = .eq ∧ a.isFirstMoment b = false := by
  obtain ⟨x, y, hx, hy, hxy⟩ := compare?_eq_some.mp h
  rw [same_iff_of_rank? w hx hy, ← Rank.compare?_eq_iff, hxy, Option.some.injEq]

/-- A date and its first moment have one rank. -/
theorem eq_of_isFirstMoment {a b : Value} {o : Ordering} (h : a.compare? b = some o)
    (hmoment : a.isFirstMoment b) : o = .eq := by
  obtain ⟨x, y, hx, hy, hxy⟩ := compare?_eq_some.mp h
  rw [← Option.some.injEq, ← hxy, Rank.compare?_eq_iff]
  cases a <;> cases b <;> simp [isFirstMoment] at hmoment <;> cases hx <;> cases hy <;>
    simp [hmoment]

theorem eq_iff_same_iff (w : World) {a b : Value} {o : Ordering} (h : a.compare? b = some o) :
    (o = .eq ↔ w.same a b) ↔ a.isFirstMoment b = false := by
  rw [same_iff_of_compare? w h]
  cases hmoment : a.isFirstMoment b with
  | true => simp [eq_of_isFirstMoment h hmoment]
  | false => simp

theorem isNull_of_compare? {a b : Value} {o : Ordering} (h : a.compare? b = some o) :
    a.isNull = false ∧ b.isNull = false := by
  obtain ⟨x, y, hx, hy, -⟩ := compare?_eq_some.mp h
  exact ⟨isNull_of_rank? hx, isNull_of_rank? hy⟩

end Value

/-! ## Comparisons -/

/-- What the comparisons give for two comparable values. -/
theorem Operation.compare_of_ordered (w : World) {a b : Value} {o : Ordering}
    (h : a.compare? b = some o) :
    compare w .equal a b = giveTruth (w.same a b) ∧
    compare w .lessOrEqual a b = giveTruth o.isLE ∧
    compare w .greaterOrEqual a b = giveTruth o.isGE := by
  obtain ⟨ha, hb⟩ := Value.isNull_of_compare? h
  cases o <;> simp only [compare, h, ha, hb] <;> exact ⟨rfl, rfl, rfl⟩

namespace Evaluator

/-- The order of values, which is that of their ranks, turns around with its operands and is
transitive.  Of two comparable values, being equal and being neither less nor greater are the
same, and so are the conditions that say so, exactly unless one value is a date and the other
one its first moment. -/
theorem order_agrees_with_equality (ev : Evaluator) (n : Nat) (env : Environment) :
    (∀ a b : Value, a.compare? b = a.rank?.bind fun x => b.rank?.bind fun y => x.compare? y) ∧
    (∀ a b : Value, b.compare? a = (a.compare? b).map Ordering.swap) ∧
    (∀ (a b c : Value) (o o' : Ordering), a.compare? b = some o → b.compare? c = some o' →
      o.isLE → o'.isLE → a.compare? c = some (o.then o')) ∧
    ∀ (a b : Value) (o : Ordering), a.compare? b = some o →
      ((o = .eq ↔ ev.world.same a b) ↔ a.isFirstMoment b = false) ∧
      ∀ x y : Phrase, (ev.valueAt n env x).run.outcome = .ok (some a) →
        (ev.valueAt n env y).run.outcome = .ok (some b) → ∀ s₁ s₂ s₃ s₄ : Source.Span,
        ((ev.valueAt n env (.node (.compare .equal) [x, y] s₁)).run.outcome =
          (ev.valueAt n env (.node .and [.node (.compare .lessOrEqual) [x, y] s₂,
            .node (.compare .greaterOrEqual) [x, y] s₃] s₄)).run.outcome ↔
          a.isFirstMoment b = false) := by
  refine ⟨Value.compare?_eq, Value.compare?_swap, fun a b c o o' => Value.compare?_trans,
    fun a b o h => ?_⟩
  have hagree := Value.eq_iff_same_iff ev.world h
  refine ⟨hagree, fun x y hx hy s₁ s₂ s₃ s₄ => ?_⟩
  obtain ⟨hequal, hle, hge⟩ := Operation.compare_of_ordered ev.world h
  have hcompare : ∀ op s, (ev.valueAt n env (.node (.compare op) [x, y] s)).run.outcome =
      Operation.compare ev.world op a b := fun op s => by
    rw [outcome_compare hy op x s, hx]
    rfl
  rw [outcome_and_of_boolean ((hcompare _ s₂).trans hle) ((hcompare _ s₃).trans hge) s₄,
    hcompare, hequal, Operation.giveTruth, Arithmetic.give, ← hagree]
  cases o <;> cases ev.world.same a b <;> simp

/-- Parameters for a number, a day and the first moment of this day. -/
def orderedRow : Environment where
  named := [("two", .decimal ⟨20, 1⟩), ("d", .date ⟨2024, 3, 1⟩),
    ("t", .timestamp ⟨⟨2024, 3, 1⟩, .midnight⟩)]
  now := default

/-- Integers and decimals are ordered together: 1 is less than 2.0, which is 2. -/
theorem order_agrees_with_equality_two : ∃ x y : Phrase,
    (folderEvaluator.valueAt 0 orderedRow x).run.outcome = .ok (some (.decimal ⟨20, 1⟩)) ∧
    (folderEvaluator.valueAt 0 orderedRow y).run.outcome = .ok (some (.integer 2)) ∧
    (Value.integer 1).compare? (.decimal ⟨20, 1⟩) = some .lt ∧
    (Value.decimal ⟨20, 1⟩).compare? (.integer 2) = some .eq ∧
    (Value.integer 2).compare? (.decimal ⟨20, 1⟩) = some .eq ∧
    (Value.integer 1).compare? (.integer 2) = some .lt ∧
    folderEvaluator.world.same (.decimal ⟨20, 1⟩) (.integer 2) ∧
    ∀ s₁ s₂ s₃ s₄ : Source.Span,
      (folderEvaluator.valueAt 0 orderedRow (.node (.compare .equal) [x, y] s₁)).run.outcome =
        (folderEvaluator.valueAt 0 orderedRow (.node .and [.node (.compare .lessOrEqual) [x, y] s₂,
          .node (.compare .greaterOrEqual) [x, y] s₃] s₄)).run.outcome := by
  have hx : (folderEvaluator.valueAt 0 orderedRow
      (.node (.namedParameter "two") [] .none)).run.outcome = .ok (some (.decimal ⟨20, 1⟩)) := rfl
  have hy : (folderEvaluator.valueAt 0 orderedRow
      (.node (.integerLiteral "2") [] .none)).run.outcome = .ok (some (.integer 2)) :=
    Eval.outcome_of_shows Value.eq_of_integer? (by decide +kernel)
  have hless : (Value.integer 1).compare? (.decimal ⟨20, 1⟩) = some .lt := by decide +kernel
  have hequal : (Value.decimal ⟨20, 1⟩).compare? (.integer 2) = some .eq := by decide +kernel
  obtain ⟨-, hswap, htrans, hagree⟩ := order_agrees_with_equality folderEvaluator 0 orderedRow
  obtain ⟨hsame, halike⟩ := hagree _ _ _ hequal
  exact ⟨_, _, hx, hy, hless, hequal, by rw [hswap, hequal]; rfl,
    htrans _ _ _ _ _ hless hequal rfl rfl, (hsame.mpr rfl).mp rfl,
    fun s₁ s₂ s₃ s₄ => (halike _ _ hx hy s₁ s₂ s₃ s₄).mpr rfl⟩

/-- What a condition in a query comes to with the parameters. -/
def Answers (condition : String) (b : Bool) : Prop :=
  ∃ t u, Phrase.ofText ("SELECT f FROM Folder f WHERE " ++ condition) = .ok t ∧
    t.conditionOf? = some u ∧
    (folderEvaluator.value orderedRow u).run.outcome = .ok (some (.boolean b))

theorem answers_of_shows {condition : String} {b : Bool}
    (h : (Phrase.ofText ("SELECT f FROM Folder f WHERE " ++ condition)).toOption.any fun t =>
      t.conditionOf?.any fun u => (folderEvaluator.value orderedRow u).shows Value.boolean? b) :
    Answers condition b := by
  obtain ⟨t, ht, h⟩ := Query.Scope.ok_of_any h
  obtain ⟨u, hu, h⟩ := (Option.any_eq_true _ _).mp h
  exact ⟨t, u, ht, hu, Eval.outcome_of_shows Value.eq_of_boolean? h⟩

/-- A day does not come before its first moment, nor behind it, and is not equal to it. -/
theorem day_differs_from_first_moment :
    (Value.date ⟨2024, 3, 1⟩).compare? (.timestamp ⟨⟨2024, 3, 1⟩, .midnight⟩) = some .eq ∧
    folderEvaluator.world.same (.date ⟨2024, 3, 1⟩)
      (.timestamp ⟨⟨2024, 3, 1⟩, .midnight⟩) = false ∧
    Answers ":d = :t" false ∧ Answers ":d <= :t AND :d >= :t" true :=
  ⟨by decide +kernel, by decide +kernel, answers_of_shows (by decide +kernel),
    answers_of_shows (by decide +kernel)⟩

end Evaluator

end RowGuard
