import RowGuard.Guard.Situation

/-!
# Who is asking

The security context comes from a provider: it is fixed, it is the one that was
set last, or it cannot be told.  Where none was set the user is anonymous.
-/

namespace RowGuard

inductive ContextProvider where
  | fixed (c : SecurityContext)
  | current
  | failing (f : Fault)

namespace ContextProvider

def context (p : ContextProvider) : Action SecurityContext := do
  match p with
  | .fixed c => return c
  | .current => return (← get).current?.getD .anonymous
  | .failing f => throw f

end ContextProvider

namespace SecurityContext

/-- Sets or clears the current context and gives the former one. -/
def replaceCurrent (c? : Option SecurityContext) : Action (Option SecurityContext) := do
  let former := (← get).current?
  modify fun s => { s with current? := c? }
  return former

/-- Runs an action in a context; afterwards the former one is current again. -/
def runAs {α : Type} (c : SecurityContext) (x : Action α) : Action α := do
  let former ← replaceCurrent (some c)
  let outcome ← Action.attempt x
  let _ ← replaceCurrent former
  Action.ofOutcome outcome

end SecurityContext

end RowGuard
