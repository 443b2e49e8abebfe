import RowGuard.Bindings
import RowGuard.Value.Basic
import RowGuard.Text.Escaped

/-!
# Worlds of objects

A world holds the objects that are alive.  An object has the name of its type,
its properties and, if it has an identity, the name of the property that is it.
That property exists from the start: it is null until it is set.

Two references agree when they are the same object, or when both objects have
one type and equal identities that are not null.  An identity may itself refer
to objects, so the comparison goes on from pair to pair of them.  It never needs
more steps than there are pairs, unless the identities run in a circle.
-/

namespace RowGuard

structure Object where
  type : String
  idProperty? : Option String
  properties : Bindings Value
deriving Inhabited

structure World where
  objects : List Object
deriving Inhabited

namespace Object

/-- An object with some properties, among them always the one that is its identity. -/
def create (type : String) (idProperty? : Option String) (properties : Bindings Value) :
    Object :=
  let unset : Bindings Value := idProperty?.toList.map fun name => (name, .null)
  { type, idProperty?, properties := unset.bindAll properties }

def property? (o : Object) (name : String) : Option Value := o.properties.find? name

/-- The present value of the property that is the identity. -/
def identity? (o : Object) : Option Value := o.idProperty?.bind o.property?

def set (o : Object) (properties : Bindings Value) : Object :=
  { o with properties := o.properties.bindAll properties }

theorem isSome_identity?_create (type name : String) (properties : Bindings Value) :
    (create type (some name) properties).identity?.isSome := by
  apply Bindings.binds_bindAll
  simp [Bindings.binds, Bindings.find?]

theorem isSome_identity?_set (o : Object) (properties : Bindings Value)
    (h : o.identity?.isSome) : (o.set properties).identity?.isSome := by
  cases hp : o.idProperty? with
  | none => simp [identity?, hp] at h
  | some name =>
      simp only [identity?, set, hp, Option.bind_some] at h ⊢
      exact Bindings.binds_bindAll o.properties properties name h

end Object

namespace World

def object? (w : World) (id : ObjectId) : Option Object := w.objects[id]?

def typeOf (w : World) (id : ObjectId) : String :=
  match w.object? id with
  | some o => o.type
  | none => ""

def property? (w : World) (id : ObjectId) (name : String) : Option Value :=
  (w.object? id).bind fun o => o.property? name

def identity? (w : World) (id : ObjectId) : Option Value :=
  (w.object? id).bind Object.identity?

/-- Sets properties of an object. -/
def set (w : World) (id : ObjectId) (properties : Bindings Value) : World :=
  { objects := w.objects.modify id fun o => o.set properties }

/-- The world with one more object, and the reference to it. -/
def add (w : World) (o : Object) : World × ObjectId :=
  ({ objects := w.objects ++ [o] }, w.objects.length)

/-! ## Equality -/

def sameObjectWithin (w : World) : Nat → ObjectId → ObjectId → Bool
  | 0, a, b => a == b
  | fuel + 1, a, b =>
      a == b || match w.identity? a, w.identity? b with
        | some x, some y =>
            w.typeOf a == w.typeOf b && !x.isNull
              && Value.agree (sameObjectWithin w fuel) x y
        | _, _ => false

def sameObject (w : World) : ObjectId → ObjectId → Bool :=
  w.sameObjectWithin (w.objects.length * w.objects.length + 1)

/-- Whether two values are equal in this world. -/
def same (w : World) (a b : Value) : Bool := Value.agree w.sameObject a b

/-- Whether a value is equal to one of a list. -/
def member (w : World) (v : Value) (vs : List Value) : Bool := vs.any (w.same v)

/-! ## Texts -/

/-- The name of the type of a value. -/
def typeName (w : World) : Value → String
  | .null => "null"
  | .boolean _ => "boolean"
  | .integer _ => "integer"
  | .decimal _ => "decimal"
  | .string _ => "string"
  | .date _ => "date"
  | .time _ => "time"
  | .timestamp _ => "timestamp"
  | .entity id => w.typeOf id
  | .collection _ => "collection"
  | .tuple _ => "tuple"

/-- The type and the identity of an object; one without an identity is told by
its place in the world. -/
def objectTextWithin (w : World) : Nat → ObjectId → String
  | 0, id => s!"{w.typeOf id}@{id}"
  | fuel + 1, id =>
      match w.identity? id with
      | none | some .null => s!"{w.typeOf id}@{id}"
      | some identity => w.typeOf id ++ "#" ++ identity.textWith (objectTextWithin w fuel)

def objectText (w : World) : ObjectId → String := w.objectTextWithin (w.objects.length + 1)

def text (w : World) (v : Value) : String := v.textWith w.objectText

mutual

/-- The text of a value with the name of its kind. -/
def inspect (w : World) : Value → String
  | .null => "Null"
  | .boolean b => s!"Boolean({b})"
  | .integer n => s!"Integer({n.toInt})"
  | .decimal d => s!"Decimal({d.text})"
  | .string s => "String(" ++ Text.Escaped.encode s ++ ")"
  | .date d => s!"Date({d.text})"
  | .time t => s!"Time({t.text})"
  | .timestamp t => s!"Timestamp({t.text})"
  | .entity id => "Entity(" ++ w.objectText id ++ ")"
  | .collection items => "Collection([" ++ ", ".intercalate (inspectAll w items) ++ "])"
  | .tuple items => "Tuple([" ++ ", ".intercalate (inspectAll w items) ++ "])"

def inspectAll (w : World) : List Value → List String
  | [] => []
  | v :: vs => inspect w v :: inspectAll w vs

end

/-- The type and the identity of an object under the name of its interface. -/
def inspectObject (w : World) (interface : String) (id : ObjectId) : String :=
  let identity := match w.identity? id with
    | none => "None"
    | some v => "Some(" ++ w.inspect v ++ ")"
  interface ++ " \x7b name: " ++ Text.Escaped.encode (w.typeOf id) ++ ", identity: "
    ++ identity ++ " \x7d"

end World

end RowGuard
