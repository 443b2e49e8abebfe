import RowGuard.Fault
import RowGuard.Mapping.Basic
import RowGuard.Text.Dotted

/-!
# Paths through objects

A path leads from values to what their objects hold, property by property.
Collections on the way are opened, nulls are dropped, and where several values
are on their way at once an object is kept only when it is first met.
-/

namespace RowGuard.Navigation

/-- What an object holds under a property.  On a mapped object the mapping
decides which properties exist, on any other one the object itself. -/
def read (m : Mapping) (w : World) (id : ObjectId) (property : String) :
    Except Fault Value :=
  let type := w.typeOf id
  let unknown := Fault.mapping (.unknownProperty property type)
  if m.maps type then
    if (m.property? type property).isSome then .ok ((w.property? id property).getD .null)
    else .error unknown
  else
    match w.property? id property with
    | some v => .ok v
    | none => .error unknown

/-- What a value holds under a segment of a path. -/
def step (m : Mapping) (w : World) (segment : String) : Value → Except Fault Value
  | .entity id => read m w id segment
  | v => .error (.mapping (.notNavigable segment (w.typeName v)))

/-- The values that are reached through a property. -/
def opened : Value → List Value
  | .collection items => items
  | v => [v]

/-- Keeps each object once, where it is first met. -/
def firstMeetings (met : List ObjectId) : List Value → List Value
  | [] => []
  | .entity id :: rest =>
      if met.contains id then firstMeetings met rest
      else .entity id :: firstMeetings (id :: met) rest
  | v :: rest => v :: firstMeetings met rest

def notNull (vs : List Value) : List Value := vs.filter fun v => !v.isNull

/-- The values behind one more segment. -/
def advance (m : Mapping) (w : World) (vs : List Value) (segment : String) :
    Except Fault (List Value) := do
  let held ← vs.mapM (step m w segment)
  let reached := notNull (held.flatMap opened)
  return if 1 < vs.length then firstMeetings [] reached else reached

/-- The values that a path leads to from several roots. -/
def evaluateAll (m : Mapping) (w : World) (roots : List Value) (segments : List String) :
    Except Fault (List Value) :=
  segments.foldlM (advance m w) (notNull roots)

/-- The value that a path leads to from one root.  Null leads to null, and once
a collection is met the rest of the path is followed from all its elements. -/
def evaluate (m : Mapping) (w : World) (root : Value) : List String → Except Fault Value
  | [] => .ok root
  | segment :: rest =>
      match root with
      | .null => .ok .null
      | .collection items => do
          let vs ← evaluateAll m w items (segment :: rest)
          return .collection vs
      | v => do
          let held ← step m w segment v
          evaluate m w held rest

/-- The segments that a dotted text names; empty ones are passed over. -/
def segments (path : String) : List String :=
  (Text.Dotted.parts path).filter fun s => !s.isEmpty

end RowGuard.Navigation
