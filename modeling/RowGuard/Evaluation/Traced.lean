import RowGuard.Fault
import RowGuard.World

/-!
# Traced computations

Evaluating an expression may ask the store.  A traced computation has an
outcome, a result or a fault, and the queries it sent on the way, in order.
What was asked before a fault stays on record.
-/

namespace RowGuard

/-- A query to the store with the values of its named parameters. -/
structure StoreQuery where
  text : String
  parameters : Bindings Value

structure Traced (α : Type) where
  outcome : Except Fault α
  queries : List StoreQuery

namespace Traced

variable {α β : Type}

instance : Inhabited (Traced α) := ⟨⟨default, []⟩⟩

/-- The computation that asks nothing. -/
def lift (outcome : Except Fault α) : Traced α := ⟨outcome, []⟩

def fail (f : Fault) : Traced α := lift (.error f)

/-- Continues with the result; what a fault leaves out is never asked. -/
def andThen (x : Traced α) (f : α → Traced β) : Traced β :=
  match x.outcome with
  | .error e => ⟨.error e, x.queries⟩
  | .ok a => ⟨(f a).outcome, x.queries ++ (f a).queries⟩

instance : Monad Traced where
  pure a := lift (.ok a)
  bind := andThen

@[simp]
theorem pure_eq (a : α) : (pure a : Traced α) = ⟨.ok a, []⟩ := rfl

theorem bind_of_ok {x : Traced α} {a : α} (h : x.outcome = .ok a) (f : α → Traced β) :
    x >>= f = ⟨(f a).outcome, x.queries ++ (f a).queries⟩ := by
  show andThen x f = _
  simp [andThen, h]

theorem bind_of_error {x : Traced α} {e : Fault} (h : x.outcome = .error e)
    (f : α → Traced β) : x >>= f = ⟨.error e, x.queries⟩ := by
  show andThen x f = _
  simp [andThen, h]

theorem id_map_eq (x : Traced α) : id <$> x = x := by
  show andThen x (fun a => lift (.ok a)) = x
  rcases x with ⟨_ | _, _⟩ <;> simp [andThen, lift]

theorem pure_bind_eq (a : α) (f : α → Traced β) : pure a >>= f = f a := by
  show andThen (lift (.ok a)) f = f a
  simp [andThen, lift]

theorem bind_assoc_eq {γ : Type} (x : Traced α) (f : α → Traced β) (g : β → Traced γ) :
    x >>= f >>= g = x >>= fun a => f a >>= g := by
  show andThen (andThen x f) g = andThen x fun a => andThen (f a) g
  rcases x with ⟨e | a, qs⟩
  · simp [andThen]
  · simp only [andThen]
    rcases (f a).outcome with _ | _ <;> simp

instance : LawfulMonad Traced :=
  LawfulMonad.mk' Traced id_map_eq pure_bind_eq bind_assoc_eq

end Traced

/-- A traced computation whose result may be undefined. -/
abbrev Eval := OptionT Traced

namespace Eval

variable {α : Type}

def fail (f : Fault) : Eval α := OptionT.mk (Traced.fail f)

/-- The result that cannot be told. -/
def undefined : Eval α := OptionT.mk (pure none)

/-- The computation whose outcome is known, `none` standing for undefined. -/
def ofOutcome (outcome : Except Fault (Option α)) : Eval α :=
  OptionT.mk (Traced.lift outcome)

/-- The value of a truth that may be undecided. -/
def ofTruth (x : Traced (Option Bool)) : Eval Value :=
  OptionT.mk (x >>= fun b => pure (b.map Value.boolean))

end Eval

end RowGuard
