import RowGuard.Guard.Situation

/-!
# Running actions

An action is run in a situation: it comes to an outcome and leaves a situation,
the latter also where it fails.  What an action may leave behind is said by a
relation between the two situations; a relation that can be chained holds of a
whole action as soon as it holds of its parts.
-/

namespace RowGuard.Action

variable {α β : Type} {x : Action α} {f : α → Action β} {σ σ' : Situation}

/-- What an action comes to in a situation, and the situation that it leaves. -/
def perform (x : Action α) (σ : Situation) : Except Fault α × Situation := x.run.run σ

@[simp]
theorem perform_pure (a : α) (σ : Situation) : (pure a : Action α).perform σ = (.ok a, σ) := rfl

@[simp]
theorem perform_throw (e : Fault) (σ : Situation) :
    (throw e : Action α).perform σ = (.error e, σ) := rfl

@[simp]
theorem perform_ofOutcome (outcome : Except Fault α) (σ : Situation) :
    (ofOutcome outcome).perform σ = (outcome, σ) := rfl

@[simp]
theorem perform_attempt (x : Action α) (σ : Situation) :
    (attempt x).perform σ = (.ok (x.perform σ).1, (x.perform σ).2) := rfl

@[simp]
theorem perform_get (σ : Situation) : (get : Action Situation).perform σ = (.ok σ, σ) := rfl

@[simp]
theorem perform_modify (f : Situation → Situation) (σ : Situation) :
    (modify f : Action Unit).perform σ = (.ok (), f σ) := rfl

@[simp]
theorem perform_count (f : Statistics → Statistics) (σ : Situation) :
    (count f).perform σ = (.ok (), { σ with statistics := f σ.statistics }) := rfl

@[simp]
theorem perform_record (calls : List StoreCall) (σ : Situation) :
    (record calls).perform σ = (.ok (), { σ with calls := σ.calls ++ calls }) := rfl

@[simp]
theorem perform_changeGuard (f : GuardState → GuardState) (σ : Situation) :
    (changeGuard f).perform σ = (.ok (), { σ with guard := f σ.guard }) := rfl

/-- An action goes on in the situation that its first part leaves, if that succeeds. -/
theorem perform_bind (x : Action α) (f : α → Action β) (σ : Situation) :
    (x >>= f).perform σ =
      match x.perform σ with
      | (.ok a, σ') => (f a).perform σ'
      | (.error e, σ') => (.error e, σ') := by
  unfold perform ExceptT.run StateT.run
  simp only [bind, ExceptT.bind, ExceptT.mk, StateT.bind]
  rcases x σ with ⟨_ | _, _⟩ <;> rfl

theorem perform_bind_of_ok {a : α} (h : x.perform σ = (.ok a, σ')) (f : α → Action β) :
    (x >>= f).perform σ = (f a).perform σ' := by
  rw [perform_bind, h]

/-- What is done with a result leaves the situation alone. -/
@[simp]
theorem perform_bind_pure (x : Action α) (f : α → β) (σ : Situation) :
    (do return f (← x) : Action β).perform σ = ((x.perform σ).1.map f, (x.perform σ).2) := by
  rw [perform_bind]
  rcases x.perform σ with ⟨e | a, σ'⟩ <;> rfl

@[simp]
theorem perform_call (c : StoreCall) (outcome : World → Except Fault α) (σ : Situation) :
    (call c outcome).perform σ = (outcome σ.world, { σ with calls := σ.calls ++ [c] }) := rfl

@[simp]
theorem perform_ofTraced (x : Traced α) (σ : Situation) : (ofTraced x).perform σ =
    (x.outcome, { σ with calls := σ.calls ++ x.queries.map StoreCall.query }) := rfl

/-! ## What is left behind -/

/-- Whatever an action comes to, it leaves a situation that is related to the one before. -/
def Leaves (R : Situation → Situation → Prop) (x : Action α) : Prop :=
  ∀ σ, R σ (x.perform σ).2

variable {R : Situation → Situation → Prop}

theorem Leaves.bind (htrans : ∀ {σ₁ σ₂ σ₃}, R σ₁ σ₂ → R σ₂ σ₃ → R σ₁ σ₃)
    (hx : Leaves R x) (hf : ∀ a, Leaves R (f a)) : Leaves R (x >>= f) := by
  intro σ
  have hfirst := hx σ
  rw [perform_bind]
  rcases h : x.perform σ with ⟨e | a, σ'⟩ <;> rw [h] at hfirst
  · exact hfirst
  · exact htrans hfirst (hf a σ')

end RowGuard.Action
