import RowGuard.Query.Statement
import RowGuard.SecurityContext
import RowGuard.Store.Basic

/-!
# Situations

All that changes while access is checked: the objects, the statements that were
checked before, the counters, the calls to the store, the security context that
is current, and the state of the guard.  An action changes the situation and
succeeds or fails; a failure leaves the changes made before it in place.
-/

namespace RowGuard

open Query (AccessKind Statement)

/-- Counters of the work done. -/
structure Statistics where
  evaluations : Nat := 0
  readCacheHits : Nat := 0
  readCacheMisses : Nat := 0
  statementCacheHits : Nat := 0
  statementCacheMisses : Nat := 0
  queriesFiltered : Nat := 0
deriving DecidableEq, Inhabited

/-- Whether checks are made at all. -/
inductive CheckMode where
  | checking | disabled
deriving DecidableEq, Inhabited

def CheckMode.name : CheckMode → String
  | .checking => "Checking"
  | .disabled => "Disabled"

/-- One way of using one object. -/
structure Check where
  object : ObjectId
  kind : AccessKind
deriving DecidableEq

/-- A remembered answer to whether an object can be read; the object is known by
its type and its identity. -/
structure Remembered where
  type : String
  id : Value
  readable : Bool

structure GuardState where
  mode : CheckMode := .checking
  /-- How many delays are open. -/
  delayDepth : Nat := 0
  /-- The checks to be made when the last delay ends, in order and each once. -/
  pending : List Check := []
  remembered : List Remembered := []
  /-- Checks that are not made. -/
  ignored : List Check := []
deriving Inhabited

structure Situation where
  world : World
  /-- The statements that were checked before, under their texts. -/
  statements : Bindings Statement := []
  statistics : Statistics := {}
  calls : List StoreCall := []
  /-- The security context that is current, if one was set. -/
  current? : Option SecurityContext := none
  guard : GuardState := {}

/-- A change of the situation that may fail. -/
abbrev Action := ExceptT Fault (StateM Situation)

namespace Action

variable {α : Type}

/-- Runs an action, the fault being its result if it fails. -/
def attempt (x : Action α) : Action (Except Fault α) :=
  ExceptT.mk do
    let outcome ← ExceptT.run x
    return .ok outcome

def ofOutcome (outcome : Except Fault α) : Action α := ExceptT.mk (return outcome)

def count (f : Statistics → Statistics) : Action Unit :=
  modify fun s => { s with statistics := f s.statistics }

def record (calls : List StoreCall) : Action Unit :=
  modify fun s => { s with calls := s.calls ++ calls }

def changeGuard (f : GuardState → GuardState) : Action Unit :=
  modify fun s => { s with guard := f s.guard }

/-- Runs a traced computation, whose queries are calls to the store. -/
def ofTraced (x : Traced α) : Action α := do
  record (x.queries.map StoreCall.query)
  ofOutcome x.outcome

/-- Calls the store. -/
def call (c : StoreCall) (outcome : World → Except Fault α) : Action α := do
  record [c]
  ofOutcome (outcome (← get).world)

end Action

end RowGuard
