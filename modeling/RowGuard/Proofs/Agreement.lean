import RowGuard.Evaluation.Traced
import RowGuard.Query.ScopeError

/-!
# Agreement of outcomes

Two computations are compared by what they come to.  Errors come in two
weights: a light one leaves a question open, and whoever asked it can go on, a
heavy one ends everything.  Outcomes agree when related results meet related
results and errors meet errors of their weight.  Leniently, a heavy error
agrees with whatever the other side comes to.  Agreement passes through
sequences of computations, so it is enough to look at one step at a time.
-/

namespace RowGuard

variable {ε α β γ δ : Type}

namespace Outcome

/-- Agreement of two outcomes, `R` relating their results. -/
def Agree (lenient : Prop) (isLight : ε → Bool) (R : α → β → Prop) :
    Except ε α → Except ε β → Prop
  | .ok a, .ok b => R a b
  | .ok _, .error e => lenient ∧ isLight e = false
  | .error e, .ok _ => lenient ∧ isLight e = false
  | .error e, .error f => lenient ∨ isLight e = isLight f

variable {lenient : Prop} {isLight : ε → Bool} {R : α → β → Prop} {S : γ → δ → Prop}

theorem Agree.refl {R : α → α → Prop} (hR : ∀ a, R a a) (x : Except ε α) :
    Agree lenient isLight R x x := by
  rcases x with e | a
  · exact Or.inr rfl
  · exact hR a

theorem Agree.mono {R' : α → β → Prop} {x : Except ε α} {y : Except ε β}
    (hR : ∀ a b, R a b → R' a b) (h : Agree lenient isLight R x y) :
    Agree lenient isLight R' x y := by
  rcases x with e | a <;> rcases y with f | b
  · exact h
  · exact h
  · exact h
  · exact hR a b h

/-- A heavy error agrees leniently with everything. -/
theorem Agree.of_heavy {e : ε} (hlenient : lenient) (hheavy : isLight e = false)
    (y : Except ε β) : Agree lenient isLight R (.error e) y := by
  rcases y with f | b
  · exact Or.inl hlenient
  · exact ⟨hlenient, hheavy⟩

theorem Agree.of_heavy_right {e : ε} (hlenient : lenient) (hheavy : isLight e = false)
    (x : Except ε α) : Agree lenient isLight R x (.error e) := by
  rcases x with f | a
  · exact Or.inl hlenient
  · exact ⟨hlenient, hheavy⟩

theorem Agree.bind {x : Except ε α} {y : Except ε β} {f : α → Except ε γ}
    {g : β → Except ε δ} (h : Agree lenient isLight R x y)
    (hnext : ∀ a b, x = .ok a → y = .ok b → R a b →
      Agree lenient isLight S (f a) (g b)) :
    Agree lenient isLight S (x >>= f) (y >>= g) := by
  rcases x with e | a <;> rcases y with e' | b
  · exact h
  · exact Agree.of_heavy h.1 h.2 _
  · exact Agree.of_heavy_right h.1 h.2 _
  · exact hnext a b rfl rfl h

/-- What succeeds on one side succeeds on the other, where no error is excused. -/
theorem Agree.exists_ok {x : Except ε α} {y : Except ε β} (h : Agree False isLight R x y)
    (hx : ∃ a, x = .ok a) : ∃ b, y = .ok b := by
  obtain ⟨a, rfl⟩ := hx
  rcases y with f | b
  · exact h.1.elim
  · exact ⟨b, rfl⟩

end Outcome

/-- Faults behind which another way of answering is tried. -/
def Fault.isUndecidable : Fault → Bool
  | .undecidable _ => true
  | _ => false

/-- Errors that only say that a name is not bound yet. -/
def Query.ScopeError.isUnresolved (e : Query.ScopeError) : Bool :=
  match e.fault with
  | .unresolvedAlias _ => true
  | _ => false

namespace Traced

theorem outcome_bind (x : Traced α) (f : α → Traced β) :
    (x >>= f).outcome = x.outcome >>= fun a => (f a).outcome := by
  rcases hx : x.outcome with e | a
  · rw [bind_of_error hx]
    rfl
  · rw [bind_of_ok hx]
    rfl

/-- Agreement of traced computations; what they ask the store is left out. -/
def Agree (lenient : Prop) (R : α → β → Prop) (x : Traced α) (y : Traced β) : Prop :=
  Outcome.Agree lenient Fault.isUndecidable R x.outcome y.outcome

variable {lenient : Prop} {R : α → β → Prop} {S : γ → δ → Prop}

theorem Agree.pure {a : α} {b : β} (h : R a b) :
    Agree lenient R (pure a : Traced α) (pure b : Traced β) := h

theorem Agree.mono {R' : α → β → Prop} {x : Traced α} {y : Traced β}
    (hR : ∀ a b, R a b → R' a b) (h : Agree lenient R x y) : Agree lenient R' x y :=
  Outcome.Agree.mono hR h

theorem Agree.bind {x : Traced α} {y : Traced β} {f : α → Traced γ} {g : β → Traced δ}
    (h : Agree lenient R x y)
    (hnext : ∀ a b, x.outcome = .ok a → y.outcome = .ok b → R a b →
      Agree lenient S (f a) (g b)) :
    Agree lenient S (x >>= f) (y >>= g) := by
  unfold Agree
  rw [outcome_bind, outcome_bind]
  exact Outcome.Agree.bind h hnext

/-- Both computations fail in the same way. -/
theorem Agree.fail {e f : Fault} (hweight : e.isUndecidable = f.isUndecidable) :
    Agree lenient R (Traced.fail e : Traced α) (Traced.fail f : Traced β) :=
  Or.inr hweight

theorem Agree.lift {x : Except Fault α} {y : Except Fault β}
    (h : Outcome.Agree lenient Fault.isUndecidable R x y) :
    Agree lenient R (Traced.lift x) (Traced.lift y) := h

theorem Agree.refl {R : α → α → Prop} (hR : ∀ a, R a a) (x : Traced α) :
    Agree lenient R x x :=
  Outcome.Agree.refl hR x.outcome

end Traced

namespace Eval

/-- Two evaluations agree when both have the same value or both are undefined. -/
def Agree (lenient : Prop) (x y : Eval α) : Prop := Traced.Agree lenient Eq x.run y.run

variable {lenient : Prop}

theorem Agree.refl (x : Eval α) : Agree lenient x x :=
  Traced.Agree.refl (fun _ => rfl) x.run

theorem Agree.of_eq {x y : Eval α} (h : x = y) : Agree lenient x y := by
  subst h
  exact Agree.refl x

theorem Agree.bind {x y : Eval α} {f g : α → Eval β} (h : Agree lenient x y)
    (hnext : ∀ a, x.run.outcome = .ok (some a) → y.run.outcome = .ok (some a) →
      Agree lenient (f a) (g a)) :
    Agree lenient (x >>= f) (y >>= g) := by
  show Traced.Agree lenient Eq _ _
  rw [OptionT.run_bind, OptionT.run_bind]
  refine Traced.Agree.bind h fun a b hx hy hab => ?_
  subst hab
  rcases a with _ | a
  · exact rfl
  · exact hnext a hx hy

/-- A heavy failure agrees leniently with everything. -/
theorem Agree.fail_left {f : Fault} (hlenient : lenient) (hheavy : f.isUndecidable = false)
    (y : Eval α) : Agree lenient (fail f) y :=
  Outcome.Agree.of_heavy hlenient hheavy _

theorem Agree.fail_right {f : Fault} (hlenient : lenient) (hheavy : f.isUndecidable = false)
    (x : Eval α) : Agree lenient x (fail f) :=
  Outcome.Agree.of_heavy_right hlenient hheavy _

theorem Agree.ofTruth {x y : Traced (Option Bool)} (h : Traced.Agree lenient Eq x y) :
    Agree lenient (ofTruth x) (ofTruth y) := by
  refine Traced.Agree.bind h fun a b _ _ hab => ?_
  subst hab
  exact rfl

end Eval

end RowGuard
