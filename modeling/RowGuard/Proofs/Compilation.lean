import RowGuard.Guard.Basic
import RowGuard.Proofs.Actions
import RowGuard.Proofs.Bindings

/-!
# Statements from memory

A text is read and checked once only, and what came of it is remembered.  As long as all
that is remembered is what reading and checking gives, remembering it does not show: the
statement of a text is the one that a check gives, and only counters and the memory change.
-/

namespace RowGuard

open Query (Statement)

/-- Every statement that is remembered is the checked statement of its text. -/
def Situation.Truthful (g : Guard) (σ : Situation) : Prop :=
  ∀ text s, σ.statements.find? text = some s → g.check text = .ok s

/-- Nothing but counters and the memory of statements differs. -/
def Situation.Compiles (σ σ' : Situation) : Prop :=
  ∃ statistics statements, σ' = { σ with statistics, statements }

namespace Guard

variable {g : Guard} {σ : Situation} {text : String}

theorem perform_statement_of_known {s : Statement} (h : σ.statements.find? text = some s) :
    (g.statement text).perform σ = (.ok s, { σ with statistics := { σ.statistics with
      statementCacheHits := σ.statistics.statementCacheHits + 1 } }) := by
  unfold statement
  rw [Action.perform_bind_of_ok (Action.perform_get σ), h]
  rfl

theorem perform_statement_of_unknown (h : σ.statements.find? text = none) :
    ∃ statistics, (g.statement text).perform σ = match g.check text with
      | .ok s => (.ok s, { σ with statistics, statements := σ.statements.bind text s })
      | .error e => (.error e, { σ with statistics }) := by
  unfold statement
  rw [Action.perform_bind_of_ok (Action.perform_get σ), h]
  cases hcheck : g.check text with
  | ok s => exact ⟨_, rfl⟩
  | error e => exact ⟨_, rfl⟩

theorem leaves_statement (g : Guard) (text : String) :
    (g.statement text).Leaves Situation.Compiles := by
  intro σ
  cases hknown : σ.statements.find? text with
  | some s =>
      rw [perform_statement_of_known hknown]
      exact ⟨_, _, rfl⟩
  | none =>
      obtain ⟨statistics, hperform⟩ := perform_statement_of_unknown (g := g) hknown
      rw [hperform]
      cases g.check text with
      | ok s => exact ⟨_, _, rfl⟩
      | error e => exact ⟨_, _, rfl⟩

/-- Memory or not, the statement of a text is the one that checking gives. -/
theorem outcome_statement (h : σ.Truthful g) :
    ((g.statement text).perform σ).1 = g.check text := by
  cases hknown : σ.statements.find? text with
  | some s => rw [perform_statement_of_known hknown, h text s hknown]
  | none =>
      obtain ⟨statistics, hperform⟩ := perform_statement_of_unknown (g := g) hknown
      rw [hperform]
      cases g.check text <;> rfl

/-- What is remembered stays true. -/
theorem truthful_statement (h : σ.Truthful g) (text : String) :
    ((g.statement text).perform σ).2.Truthful g := by
  cases hknown : σ.statements.find? text with
  | some s =>
      rw [perform_statement_of_known hknown]
      exact h
  | none =>
      obtain ⟨statistics, hperform⟩ := perform_statement_of_unknown (g := g) hknown
      rw [hperform]
      cases hcheck : g.check text with
      | error e => exact h
      | ok s =>
          intro other t ht
          by_cases hother : other = text
          · rw [hother] at ht ⊢
            rw [hcheck, ← Option.some.inj (ht.symm.trans (Bindings.find?_bind_self _ text s))]
          · exact h other t ((Bindings.find?_bind_of_ne σ.statements s hother).symm.trans ht)

end Guard

end RowGuard
