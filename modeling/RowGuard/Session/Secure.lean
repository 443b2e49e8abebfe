import RowGuard.Guard.Checks
import RowGuard.Restriction.Positional
import RowGuard.Session.Configuration

/-!
# Secure sessions

A secure session stands between its user and a store.  Objects are checked on
their way in and out, and queries reach the store only in restricted form.
-/

namespace RowGuard

open Query (AccessKind)

structure SecureSession where
  guard : Guard
  store : Store

/-- A query with the values that the user gave for its parameters. -/
structure QueryRequest where
  text : String
  named : Bindings Value := []
  positional : List (Nat × Value) := []

namespace SecureSession

/-! ## Objects -/

/-- The object that the store has for an identity, which must be readable.  The
search opens a delay of its own and ends it whatever happens. -/
def find (s : SecureSession) (type : String) (id : Value) : Action (Option ObjectId) := do
  Guard.delayChecks
  let found ← Action.attempt (Action.call (.find type id) fun w => s.store.find w type id)
  let noted ← Action.attempt
    (match found with
      | .ok (some object) => s.guard.checkAccess .read object
      | _ => return ())
  let checked ← Action.attempt s.guard.checkNow
  let object? ← Action.ofOutcome found
  Action.ofOutcome noted
  Action.ofOutcome checked
  return object?

/-- What the store has for an identity, without any check. -/
def findUnchecked (s : SecureSession) (type : String) (id : Value) :
    Action (Option ObjectId) :=
  Action.call (.find type id) fun w => s.store.find w type id

/-- Takes a new object in, which must be creatable. -/
def persist (s : SecureSession) (object : ObjectId) : Action Unit := do
  s.guard.checkAccess .create object
  Action.call (.persist object) fun w => s.store.persist w object

/-- Merges the state of an object, which must be updatable. -/
def merge (s : SecureSession) (object : ObjectId) : Action ObjectId := do
  s.guard.checkAccess .update object
  Action.call (.merge object) fun w => s.store.merge w object

/-- Removes an object, which must be deletable. -/
def remove (s : SecureSession) (object : ObjectId) : Action Unit := do
  s.guard.checkAccess .delete object
  Action.call (.remove object) fun w => s.store.remove w object

/-- Reloads an object, which must then be readable. -/
def refresh (s : SecureSession) (object : ObjectId) : Action Unit := do
  let world ← Action.call (.refresh object) fun w => s.store.refresh w object
  modify fun situation => { situation with world := world }
  s.guard.checkAccess .read object

/-! ## Queries -/

/-- The request for a query that the mapping knows by name. -/
def namedQuery (s : SecureSession) (name : String) : Except Fault String :=
  match s.guard.mapping.namedQuery? name with
  | some text => .ok text
  | none => .error (.configuration (.unknownNamedQuery name))

/-- The query as the current user may run it. -/
def restricted (s : SecureSession) (q : QueryRequest) : Action RestrictedQuery := do
  let c ← s.guard.provider.context
  s.guard.restrict q.text .read c

/-- The query that reaches the store, if any does. -/
def storeQuery? (q : QueryRequest) (r : RestrictedQuery) :
    Except Fault (Option StoreQuery) :=
  match r.text? with
  | none => .ok none
  | some _ => do
      let bound ← (r.addParameters q.named).bindPositional q.positional
      return bound.text?.map fun text => ⟨text, bound.parameters⟩

/-- All rows of a query.  Where nothing is accessible the store is not asked. -/
def results (s : SecureSession) (q : QueryRequest) : Action (List Value) := do
  let r ← s.restricted q
  match ← Action.ofOutcome (storeQuery? q r) with
  | none => return []
  | some query => Action.call (.query query) fun w => s.store.query w query

/-- The only row of a query, if it has one. -/
def singleResult (s : SecureSession) (q : QueryRequest) : Action (Option Value) := do
  match ← s.results q with
  | [] => return none
  | [v] => return some v
  | vs => throw (.violation (.severalResults vs.length))

/-- The session as a report shows it. -/
def inspect (state : GuardState) : String :=
  s!"SecureSession \x7b mode: {state.mode.name}, delay_depth: {state.delayDepth}, .. \x7d"

end SecureSession

/-! ## Factories -/

/-- Makes sessions that share one policy. -/
structure SessionFactory where
  configuration : Configuration
  mapping : Mapping
  policy : Policy

namespace SessionFactory

/-- Reads and checks the rules; the first that is at fault ends it. -/
def ofConfiguration (c : Configuration) (m : Mapping) : Except Fault SessionFactory := do
  return { configuration := c, mapping := m, policy := ← c.policy m }

def session (f : SessionFactory) (store : Store) : SecureSession :=
  { guard := f.configuration.guard f.mapping f.policy (some store), store }

/-- Starts a new unit of work. -/
def startSession (f : SessionFactory) (store : Store) : Action SecureSession := do
  Action.changeGuard fun _ => {}
  return f.session store

/-- The factory as a report shows it. -/
def inspect (f : SessionFactory) (statements : Nat) : String :=
  "SecureSessionFactory \x7b configuration: " ++ f.configuration.inspect
    ++ s!", rules: {f.policy.rules.length}, cached_statements: {statements} \x7d"

end SessionFactory

end RowGuard
