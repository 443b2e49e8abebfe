import RowGuard.Guard.Basic

/-!
# Checks

The checks of one unit of work.  They can be turned off altogether or be ignored
for single objects.  While a delay is open a check is only noted down; delays
nest, and when the last one ends the noted checks are made in their order, up to
the first that fails.  Answers about reading are remembered by the identity of
the object, as far as it has one.
-/

namespace RowGuard.Guard

open Query (AccessKind)

/-! ## Answers -/

/-- The remembered answer for a type and an identity. -/
def knownAnswer? (w : World) (remembered : List Remembered) (type : String) (id : Value) :
    Option Bool :=
  (remembered.find? fun r => r.type == type && w.same r.id id).map Remembered.readable

/-- Whether the current user may use an object, asked of the rules. -/
def ask (g : Guard) (kind : AccessKind) (object : ObjectId) : Action Bool := do
  let c ← g.provider.context
  g.isGranted kind object c

/-- The identity under which an answer is remembered. -/
def memoryKey? (g : Guard) (w : World) (kind : AccessKind) (object : ObjectId) :
    Option Value :=
  if kind = .read ∧ g.remembersReads then g.mapping.idOf w object else none

/-- Whether the current user may read an object with this identity. -/
def askOnce (g : Guard) (object : ObjectId) (id : Value) : Action Bool := do
  let s ← get
  let type := s.world.typeOf object
  match knownAnswer? s.world s.guard.remembered type id with
  | some answer =>
      Action.count fun n => { n with readCacheHits := n.readCacheHits + 1 }
      return answer
  | none =>
      Action.count fun n => { n with readCacheMisses := n.readCacheMisses + 1 }
      let answer ← g.ask .read object
      Action.changeGuard fun state =>
        { state with remembered := ⟨type, id, answer⟩ :: state.remembered }
      return answer

/-- Whether the current user may use an object. -/
def isAccessible (g : Guard) (kind : AccessKind) (object : ObjectId) : Action Bool := do
  let s ← get
  if s.guard.mode = .disabled ∨ s.guard.ignored.contains ⟨object, kind⟩ then return true
  else
    match g.memoryKey? s.world kind object with
    | some id => g.askOnce object id
    | none => g.ask kind object

/-- An object of a class that does not exist yet. -/
def newObject (g : Guard) (type : String) (properties : Bindings Value) : Object :=
  Object.create type ((g.mapping.idProperty? type).filter properties.binds) properties

/-- Whether the current user may use an object that would have these properties. -/
def isAccessibleNew (g : Guard) (kind : AccessKind) (type : String)
    (properties : Bindings Value) : Action Bool := do
  if !g.mapping.maps type then throw (.mapping (.unknownEntity type))
  else if (← get).guard.mode = .disabled then return true
  else
    let c ← g.provider.context
    let (world, object) := (← get).world.add (g.newObject type properties)
    modify fun s => { s with world := world }
    g.isGranted kind object c

/-! ## Enforcement -/

/-- Fails unless the current user may use an object.  Whatever goes wrong is told
as a denial, except for faults that are about the access itself. -/
def enforce (g : Guard) (kind : AccessKind) (object : ObjectId) : Action Unit := do
  let name := g.mapping.describe (← get).world object
  match ← Action.attempt (g.isAccessible kind object) with
  | .ok true => return ()
  | .ok false => throw (.accessDenied name kind none)
  | .error f => if f.isSecurity then throw f else throw (.accessDenied name kind (some f))

/-- Notes a check down, unless it is there already. -/
def note (c : Check) (pending : List Check) : List Check :=
  if pending.contains c then pending else pending ++ [c]

/-- Checks now or, while a delay is open, later. -/
def checkAccess (g : Guard) (kind : AccessKind) (object : ObjectId) : Action Unit := do
  let state := (← get).guard
  if state.mode = .disabled then return ()
  else if 0 < state.delayDepth then
    Action.changeGuard fun state => { state with pending := note ⟨object, kind⟩ state.pending }
  else g.enforce kind object

/-- Opens a delay. -/
def delayChecks : Action Unit :=
  Action.changeGuard fun state => { state with delayDepth := state.delayDepth + 1 }

def enforceAll (g : Guard) : List Check → Action Unit
  | [] => return ()
  | c :: cs => do
      g.enforce c.kind c.object
      enforceAll g cs

/-- Ends a delay; the end of the last one brings the checks that were noted down. -/
def checkNow (g : Guard) : Action Unit := do
  let state := (← get).guard
  match state.delayDepth with
  | 0 => throw (.violation .unmatchedCheck)
  | 1 =>
      Action.changeGuard fun state => { state with delayDepth := 0, pending := [] }
      g.enforceAll state.pending
  | depth + 2 => Action.changeGuard fun state => { state with delayDepth := depth + 1 }

def setMode (mode : CheckMode) : Action Unit :=
  Action.changeGuard fun state => { state with mode }

/-- Leaves checks of some objects out from now on. -/
def ignoreChecks (kind : AccessKind) (objects : List ObjectId) : Action Unit :=
  Action.changeGuard fun state =>
    { state with ignored := objects.map (fun o => ⟨o, kind⟩) ++ state.ignored }

/-- The objects that the current user may read, in order. -/
def filterReadable (g : Guard) : List ObjectId → Action (List ObjectId)
  | [] => return []
  | o :: os => do
      let readable ← g.isAccessible .read o
      let others ← filterReadable g os
      return if readable then o :: others else others

/-- Forgets all remembered answers. -/
def forget : Action Unit :=
  Action.changeGuard fun state => { state with remembered := [] }

end RowGuard.Guard
