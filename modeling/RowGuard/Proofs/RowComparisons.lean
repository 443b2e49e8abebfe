import RowGuard.Proofs.Operands
import RowGuard.Proofs.SelectLists

/-!
# Comparisons with rows

A subselect has the collection of its rows for its value, and a comparison takes that
collection as it is, even if it holds a single row.  A collection is equal to collections only
and has no order.  So the comparison comes to what it comes to for any two values that have
nothing to do with each other, whatever the row is; it comes to what the row itself would give
only where the row is such a value.
-/

namespace RowGuard

open Query (Comparison Label Phrase Statement)
open Query.Phrase

/-! ## Values and collections -/

namespace Value

variable {sameObject : ObjectId → ObjectId → Bool}

mutual

/-- How many collections and tuples are nested in one another. -/
def nesting : Value → Nat
  | .collection vs | .tuple vs => nestingAll vs + 1
  | _ => 0

def nestingAll : List Value → Nat
  | [] => 0
  | v :: vs => max v.nesting (nestingAll vs)

end

mutual

/-- Equal values are nested alike. -/
theorem nesting_eq_of_agree : ∀ {v v' : Value}, v.agree sameObject v' → v.nesting = v'.nesting
  | .collection vs, v', h => by
      cases v' with
      | collection vs' => exact congrArg (· + 1) (nestingAll_eq_of_agreeAll h)
      | _ => simp [agree, toDecimal?] at h
  | .tuple vs, v', h => by
      cases v' with
      | tuple vs' => exact congrArg (· + 1) (nestingAll_eq_of_agreeAll h)
      | _ => simp [agree, toDecimal?] at h
  | .null, v', h | .boolean _, v', h | .integer _, v', h | .decimal _, v', h
  | .string _, v', h | .date _, v', h | .time _, v', h | .timestamp _, v', h
  | .entity _, v', h => by
      cases v' with
      | collection | tuple => simp [agree, toDecimal?] at h
      | _ => rfl

theorem nestingAll_eq_of_agreeAll : ∀ {vs vs' : List Value},
    agreeAll sameObject vs vs' → nestingAll vs = nestingAll vs'
  | [], [], _ => rfl
  | [], _ :: _, h | _ :: _, [], h => by cases h
  | v :: vs, v' :: vs', h => by
      obtain ⟨hfirst, hrest⟩ := (Bool.and_eq_true _ _).mp h
      rw [nestingAll, nestingAll, nesting_eq_of_agree hfirst, nestingAll_eq_of_agreeAll hrest]

end

theorem compare?_collection (v : Value) (vs : List Value) :
    v.compare? (.collection vs) = none := by
  cases v <;> simp [compare?, toDecimal?]

/-- The only element of a collection, if that is an integer. -/
def onlyInteger? : Value → Option Int64
  | .collection [.integer i] => some i
  | _ => none

theorem eq_of_onlyInteger? (v : Value) (i : Int64) (h : v.onlyInteger? = some i) :
    v = .collection [.integer i] := by
  unfold onlyInteger? at h
  split at h <;> cases h
  rfl

end Value

/-- A collection is equal to collections only. -/
theorem World.same_collection (w : World) {v : Value} (hv : ∀ vs, v ≠ .collection vs)
    (rs : List Value) : w.same v (.collection rs) = false := by
  cases v with
  | collection vs => exact absurd rfl (hv vs)
  | _ => simp [World.same, Value.agree, Value.toDecimal?]

/-- What is equal to a collection of one value is not equal to that value. -/
theorem World.not_same_of_same_singleton (w : World) {v r : Value}
    (h : w.same v (.collection [r])) : w.same v r = false := by
  by_contra hsame
  have houter : v.nesting = r.nesting + 1 := by
    simpa [Value.nesting, Value.nestingAll] using Value.nesting_eq_of_agree h
  have hinner : v.nesting = r.nesting :=
    Value.nesting_eq_of_agree ((Bool.not_eq_false _).mp hsame)
  omega

namespace Operation

/-- What a comparison gives for two values that have nothing to do with each other: they are
not equal, they differ, and they have no order. -/
def ofUnrelated : Comparison → Option Value
  | .equal => some (.boolean false)
  | .notEqual => some (.boolean true)
  | _ => none

variable (w : World) (op : Comparison) {v r : Value}

/-- Beside null, values are not told from each other. -/
theorem compare_null (hnull : v.isNull) (r r' : Value) :
    compare w op v r = compare w op v r' := by
  cases v with
  | null => cases op <;> simp [compare, Value.isNull, Value.compare?, Value.toDecimal?]
  | _ => cases hnull

/-- Whatever is not a collection has nothing to do with one. -/
theorem compare_collection (hnull : v.isNull = false) (hv : ∀ vs, v ≠ .collection vs)
    (rs : List Value) : compare w op v (.collection rs) = .ok (ofUnrelated op) := by
  have hrs : (Value.collection rs).isNull = false := rfl
  cases op with
  | equal | notEqual =>
      simp [compare, hnull, hrs, w.same_collection hv, giveTruth, Arithmetic.give, ofUnrelated]
  | _ => simp [compare, Value.compare?_collection, Arithmetic.undefined, ofUnrelated]

/-- A value and the collection of it alone compare in the same way only where neither has
anything to do with what they are compared with. -/
theorem compare_singleton_iff (hnull : v.isNull = false) :
    compare w op v (.collection [r]) = compare w op v r ↔
      compare w op v (.collection [r]) = .ok (ofUnrelated op) ∧
        compare w op v r = .ok (ofUnrelated op) := by
  constructor
  · intro h
    suffices hunrelated : compare w op v (.collection [r]) = .ok (ofUnrelated op) from
      ⟨hunrelated, h ▸ hunrelated⟩
    have hrs : (Value.collection [r]).isNull = false := rfl
    cases op with
    | equal =>
        cases hsame : w.same v (.collection [r]) with
        | false => simp [compare, hsame, giveTruth, Arithmetic.give, ofUnrelated]
        | true =>
            have hother := w.not_same_of_same_singleton hsame
            simp [compare, hnull, hrs, hsame, hother, giveTruth, Arithmetic.give] at h
    | notEqual =>
        cases hsame : w.same v (.collection [r]) with
        | false => simp [compare, hnull, hrs, hsame, giveTruth, Arithmetic.give, ofUnrelated]
        | true =>
            have hother := w.not_same_of_same_singleton hsame
            cases hr : r.isNull <;>
              simp [compare, hnull, hrs, hsame, hother, hr, giveTruth, Arithmetic.give,
                Arithmetic.undefined] at h
    | _ => simp [compare, Value.compare?_collection, Arithmetic.undefined, ofUnrelated]
  · rintro ⟨hcollection, hrow⟩
    exact hcollection.trans hrow.symm

end Operation

/-! ## Comparisons -/

namespace Evaluator

/-- The rows of a subselect, inside of which some nesting is left, are those of the first strategy
that can decide. -/
def Yields (ev : Evaluator) (n : Nat) (env : Environment) (t : Phrase) (rows : List Value) :
    Prop :=
  ∃ s, Statement.ofSubselect (some ev.mapping.model) (env.scope ev.world) t = .ok s ∧
    (firstDecision (answerBy ev (ev.valueAt n) env s) ev.strategies).outcome = .ok (some rows)

variable {ev : Evaluator} {n : Nat} {env : Environment} {t u : Phrase} {rows : List Value}
  {r : Value}

/-- The value of a subselect is the collection of its rows. -/
theorem yields_iff (hlabel : t.label = .subselect) :
    ev.Yields n env t rows ↔
      (ev.valueAt (n + 1) env t).run.outcome = .ok (some (.collection rows)) := by
  obtain ⟨l, cs, span⟩ := t
  obtain rfl : l = .subselect := hlabel
  have hvalue : ev.valueAt (n + 1) env (.node .subselect cs span) =
      ev.subselect (ev.valueAt n) env (.node .subselect cs span) :=
    Expression.value_subselect cs span
  rw [hvalue]
  constructor
  · rintro ⟨s, hs, hrows⟩
    rw [subselect_of_ok hs]
    exact Eval.outcome_bind_of_ok hrows _
  · intro h
    cases hs : Statement.ofSubselect (some ev.mapping.model) (env.scope ev.world)
        (.node .subselect cs span) with
    | error e =>
        rw [subselect_of_error hs] at h
        split at h <;> cases h
    | ok s =>
        rw [subselect_of_ok hs] at h
        obtain ⟨rows', hrows, h⟩ := Eval.exists_of_bind h
        cases h
        exact ⟨s, hs, hrows⟩

theorem Yields.outcome (h : ev.Yields n env t rows) :
    (ev.valueAt (n + 1) env t).run.outcome = .ok (some (.collection rows)) := by
  obtain ⟨s, hs, -⟩ := id h
  exact (yields_iff (Statement.label_of_ofSubselect hs)).mp h

/-- Whatever nesting is left, a comparison with a subselect of one row comes to what the row
itself gives only where both are unrelated to the other operand.  To the subselect everything is
that is neither null nor a collection, so the row is of no account there. -/
theorem compares_like_row_iff_unrelated (ht : ev.Yields n env t [r])
    (hu : (ev.valueAt (n + 1) env u).run.outcome = .ok (some r)) (op : Comparison) (x : Phrase)
    (s s' : Source.Span) :
    ((ev.valueAt (n + 1) env (.node (.compare op) [x, t] s)).run.outcome =
        (ev.valueAt (n + 1) env (.node (.compare op) [x, u] s')).run.outcome ↔
      ∀ v, (ev.valueAt (n + 1) env x).run.outcome = .ok (some v) → v.isNull ∨
        (ev.valueAt (n + 1) env (.node (.compare op) [x, t] s)).run.outcome =
            .ok (Operation.ofUnrelated op) ∧
          (ev.valueAt (n + 1) env (.node (.compare op) [x, u] s')).run.outcome =
            .ok (Operation.ofUnrelated op)) ∧
    ∀ v, (ev.valueAt (n + 1) env x).run.outcome = .ok (some v) → v.isNull = false →
      (∀ vs, v ≠ .collection vs) →
        (ev.valueAt (n + 1) env (.node (.compare op) [x, t] s)).run.outcome =
          .ok (Operation.ofUnrelated op) := by
  rw [outcome_compare ht.outcome op x s, outcome_compare hu op x s']
  generalize (ev.valueAt (n + 1) env x).run.outcome = outcome
  rcases outcome with e | v?
  · exact ⟨⟨by simp, fun _ => rfl⟩, by simp⟩
  cases v? with
  | none => exact ⟨⟨by simp, fun _ => rfl⟩, by simp⟩
  | some v =>
      refine ⟨⟨fun h v' hv' => ?_, fun h => ?_⟩, fun v' hv' hnull hcollection => ?_⟩
      · cases hv'
        cases hnull : v.isNull with
        | true => exact Or.inl rfl
        | false => exact Or.inr ((Operation.compare_singleton_iff ev.world op hnull).mp h)
      · obtain hnull | ⟨hrows, hrow⟩ := h v rfl
        · exact Operation.compare_null ev.world op hnull _ _
        · exact hrows.trans hrow.symm
      · cases hv'
        exact Operation.compare_collection ev.world op hnull hcollection [r]

end Evaluator

/-- Whether a phrase is a comparison of two phrases that pass a test. -/
def Query.Phrase.comparesBy (op : Comparison) (test : Phrase → Phrase → Source.Span → Bool) :
    Phrase → Bool
  | .node (.compare op') [x, t] s => op' == op && test x t s
  | _ => false

theorem Query.Phrase.exists_of_comparesBy {op : Comparison}
    {test : Phrase → Phrase → Source.Span → Bool} {t : Phrase} (h : t.comparesBy op test) :
    ∃ x u s, t = .node (.compare op) [x, u] s ∧ test x u s := by
  unfold comparesBy at h
  split at h
  · obtain ⟨hop, htest⟩ := (Bool.and_eq_true _ _).mp h
    obtain rfl := beq_iff_eq.mp hop
    exact ⟨_, _, _, rfl, htest⟩
  · cases h

namespace Evaluator

/-- The level of the folder is 1, and 2 is not equal to it in either way of asking. -/
theorem compares_like_row_level : ∃ t x u s,
    Phrase.ofText ("SELECT d FROM Document d WHERE " ++
      "2 = (SELECT f.level FROM Folder f WHERE f = d.folder)") = .ok t ∧
    t.conditionOf? = some (.node (.compare .equal) [x, u] s) ∧
    folderEvaluator.Yields 0 folderRow u [.integer 1] ∧
    (folderEvaluator.valueAt 1 folderRow (.node (.compare .equal) [x, u] s)).run.outcome =
      (folderEvaluator.valueAt 1 folderRow (.node (.compare .equal)
        [x, path (identifier "d") ["folder", "level"]] s)).run.outcome := by
  have hfound : (Phrase.ofText ("SELECT d FROM Document d WHERE " ++
      "2 = (SELECT f.level FROM Folder f WHERE f = d.folder)")).toOption.any fun t =>
        t.conditionOf?.any (comparesBy .equal fun x u s =>
          u.label == .subselect &&
          (folderEvaluator.valueAt 1 folderRow u).shows Value.onlyInteger? 1 &&
          (folderEvaluator.valueAt 1 folderRow x).shows Value.integer? 2 &&
          (folderEvaluator.valueAt 1 folderRow (.node (.compare .equal)
            [x, path (identifier "d") ["folder", "level"]] s)).shows Value.boolean? false) := by
    decide +kernel
  obtain ⟨t, ht, hfound⟩ := Query.Scope.ok_of_any hfound
  obtain ⟨condition, hcondition, hfound⟩ := (Option.any_eq_true _ _).mp hfound
  obtain ⟨x, u, s, rfl, htest⟩ := exists_of_comparesBy hfound
  simp only [Bool.and_eq_true, beq_iff_eq] at htest
  obtain ⟨⟨⟨hlabel, hrow⟩, htwo⟩, hdiffers⟩ := htest
  have hrow : folderEvaluator.Yields 0 folderRow u [.integer 1] :=
    (yields_iff hlabel).mpr (Eval.outcome_of_shows Value.eq_of_onlyInteger? hrow)
  have hlevel : (folderEvaluator.valueAt 1 folderRow
      (path (identifier "d") ["folder", "level"])).run.outcome = .ok (some (.integer 1)) :=
    Eval.outcome_of_shows Value.eq_of_integer? (by decide +kernel)
  obtain ⟨halike, hunrelated⟩ := compares_like_row_iff_unrelated hrow hlevel .equal x s s
  have hfalse := hunrelated _ (Eval.outcome_of_shows Value.eq_of_integer? htwo) rfl (by simp)
  exact ⟨t, x, u, s, ht, hcondition, hrow, halike.mpr fun v _ =>
    Or.inr ⟨hfalse, Eval.outcome_of_shows Value.eq_of_boolean? hdiffers⟩⟩

/-- The level of the folder is 1.  The subselect that gives this row differs from 1, though 1
does not differ from itself. -/
theorem row_differs_from_itself : ∃ t x u s,
    Phrase.ofText ("SELECT d FROM Document d WHERE " ++
      "1 <> (SELECT f.level FROM Folder f WHERE f = d.folder)") = .ok t ∧
    t.conditionOf? = some (.node (.compare .notEqual) [x, u] s) ∧
    folderEvaluator.Yields 0 folderRow u [.integer 1] ∧
    (folderEvaluator.value folderRow x).run.outcome = .ok (some (.integer 1)) ∧
    (folderEvaluator.value folderRow (.node (.compare .notEqual) [x, u] s)).run.outcome =
      .ok (some (.boolean true)) ∧
    (folderEvaluator.value folderRow (.node (.compare .notEqual) [x, x] s)).run.outcome =
      .ok (some (.boolean false)) := by
  have hfound : (Phrase.ofText ("SELECT d FROM Document d WHERE " ++
      "1 <> (SELECT f.level FROM Folder f WHERE f = d.folder)")).toOption.any fun t =>
        t.conditionOf?.any (comparesBy .notEqual fun x u s =>
          u.label == .subselect &&
          (folderEvaluator.valueAt 1 folderRow u).shows Value.onlyInteger? 1 &&
          (folderEvaluator.value folderRow x).shows Value.integer? 1 &&
          (folderEvaluator.value folderRow
            (.node (.compare .notEqual) [x, u] s)).shows Value.boolean? true &&
          (folderEvaluator.value folderRow
            (.node (.compare .notEqual) [x, x] s)).shows Value.boolean? false) := by
    decide +kernel
  obtain ⟨t, ht, hfound⟩ := Query.Scope.ok_of_any hfound
  obtain ⟨condition, hcondition, hfound⟩ := (Option.any_eq_true _ _).mp hfound
  obtain ⟨x, u, s, rfl, htest⟩ := exists_of_comparesBy hfound
  simp only [Bool.and_eq_true, beq_iff_eq] at htest
  obtain ⟨⟨⟨⟨hlabel, hrow⟩, hone⟩, hdiffers⟩, hitself⟩ := htest
  exact ⟨t, x, u, s, ht, hcondition,
    (yields_iff hlabel).mpr (Eval.outcome_of_shows Value.eq_of_onlyInteger? hrow),
    Eval.outcome_of_shows Value.eq_of_integer? hone,
    Eval.outcome_of_shows Value.eq_of_boolean? hdiffers,
    Eval.outcome_of_shows Value.eq_of_boolean? hitself⟩

end Evaluator

end RowGuard
