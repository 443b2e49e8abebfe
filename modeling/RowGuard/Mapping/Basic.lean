import RowGuard.Bindings
import RowGuard.Query.Model
import RowGuard.World

/-!
# Mappings

A mapping says which types of entities there are, what properties they declare,
and what they inherit from and implement.  Classes keep the order in which they
were added; one that is added again replaces the former in its place.

Superclass and interface references may run in circles or lead to names that
are not mapped.  Every walk along them takes a class out of the ones that are
left, so it ends.
-/

namespace RowGuard

open Query (PropertyType TypeModel)

structure Property where
  name : String
  type : PropertyType
deriving DecidableEq

def Property.isCollection (p : Property) : Bool :=
  match p.type with
  | .collection _ => true
  | _ => false

structure EntityClass where
  name : String
  superclass? : Option String := none
  interfaces : List String := []
  /-- Abstract classes and interfaces have no objects of their own. -/
  isAbstract : Bool := false
  idProperty? : Option String := none
  properties : List Property := []
deriving DecidableEq

namespace EntityClass

/-- The types that a class refers to as its own supertypes. -/
def parents (c : EntityClass) : List String := c.superclass?.toList ++ c.interfaces

/-- The property that the class itself declares. -/
def declared? (c : EntityClass) (property : String) : Option Property :=
  c.properties.find? fun p => p.name == property

def extending (c : EntityClass) (name : String) : EntityClass :=
  { c with superclass? := some name }

def implementing (c : EntityClass) (name : String) : EntityClass :=
  { c with interfaces := c.interfaces ++ [name] }

def declaring (c : EntityClass) (p : Property) : EntityClass :=
  { c with properties := c.properties ++ [p] }

/-- Declares a basic property and makes it the identity. -/
def identifiedBy (c : EntityClass) (property : String) : EntityClass :=
  { c.declaring ⟨property, .basic⟩ with idProperty? := some property }

end EntityClass

structure Mapping where
  classes : List EntityClass := []
  namedQueries : Bindings String := []
deriving Inhabited

namespace Mapping

/-! ## Classes -/

def addTo (c : EntityClass) : List EntityClass → List EntityClass
  | [] => [c]
  | d :: ds => if d.name == c.name then c :: ds else d :: addTo c ds

/-- Adds a class, in the place of a former one of its name. -/
def add (m : Mapping) (c : EntityClass) : Mapping :=
  { m with classes := addTo c m.classes }

def addQuery (m : Mapping) (name text : String) : Mapping :=
  { m with namedQueries := m.namedQueries.bind name text }

def ofClasses (classes : List EntityClass) (namedQueries : Bindings String) : Mapping :=
  { classes := classes.foldl (fun cs c => addTo c cs) [], namedQueries }

/-- The first class of a name. -/
def lookUp (classes : List EntityClass) (name : String) : Option EntityClass :=
  classes.find? fun c => c.name == name

def class? (m : Mapping) (name : String) : Option EntityClass := lookUp m.classes name

def maps (m : Mapping) (name : String) : Bool := (m.class? name).isSome

def namedQuery? (m : Mapping) (name : String) : Option String := m.namedQueries.find? name

/-- The classes but those of a name. -/
def without (classes : List EntityClass) (name : String) : List EntityClass :=
  classes.filter fun c => !(c.name == name)

theorem length_without_lt {classes : List EntityClass} {name : String} {c : EntityClass}
    (h : lookUp classes name = some c) : (without classes name).length < classes.length := by
  have hmem := List.mem_of_find?_eq_some h
  have hname := List.find?_some h
  refine Nat.lt_of_le_of_ne (List.length_filter_le _ _) fun heq => ?_
  have := (List.length_filter_eq_length_iff.mp heq) c hmem
  simp_all

/-! ## Inheritance -/

/-- The class of a name and its superclasses, the nearest first, among the
classes that are left. -/
def lineageWithin (left : List EntityClass) (name : String) : List EntityClass :=
  match _h : lookUp left name with
  | none => []
  | some c =>
      match c.superclass? with
      | none => [c]
      | some parent => c :: lineageWithin (without left name) parent
termination_by left.length
decreasing_by exact length_without_lt _h

def lineage (m : Mapping) (name : String) : List EntityClass :=
  lineageWithin m.classes name

/-- The property of a type, its own or the nearest inherited one. -/
def property? (m : Mapping) (type property : String) : Option Property :=
  (m.lineage type).findSome? fun c => c.declared? property

def propertyType? (m : Mapping) (type property : String) : Option PropertyType :=
  (m.property? type property).map Property.type

/-- The name of the identity property of a type, its own or the nearest
inherited one. -/
def idProperty? (m : Mapping) (type : String) : Option String :=
  (m.lineage type).findSome? EntityClass.idProperty?

/-- Whether a type is among the supertypes of the pending ones, which are looked
up among the classes that are left. -/
def reaches (sup : String) (left : List EntityClass) (pending : List String) : Bool :=
  match pending with
  | [] => false
  | name :: rest =>
      match _h : lookUp left name with
      | none => reaches sup left rest
      | some c =>
          c.parents.contains sup || reaches sup (without left name) (c.parents ++ rest)
termination_by (left.length, pending.length)
decreasing_by
  · exact Prod.Lex.right _ (by simp)
  · exact Prod.Lex.left _ _ (length_without_lt _h)

/-- Whether an object of type `sub` is one of type `sup`: they are the same, or
`sub` inherits from or implements `sup`. -/
def isAssignable (m : Mapping) (sub sup : String) : Bool :=
  sub == sup || reaches sup m.classes [sub]

/-- The classes that the objects of a type can have. -/
def concreteClasses (m : Mapping) (type : String) : List EntityClass :=
  m.classes.filter fun c => !c.isAbstract && m.isAssignable c.name type

/-- Interfaces are types even where no class is mapped under their name. -/
def hasEntity (m : Mapping) (name : String) : Bool :=
  m.maps name || m.classes.any fun c => c.interfaces.contains name

/-- What checking statements needs to know. -/
def model (m : Mapping) : TypeModel where
  hasEntity := m.hasEntity
  propertyType? := m.propertyType?

/-! ## Objects -/

def isInstance (m : Mapping) (w : World) (id : ObjectId) (type : String) : Bool :=
  m.isAssignable (w.typeOf id) type

/-- The identity that the mapping gives an object, if it is not null. -/
def idOf (m : Mapping) (w : World) (id : ObjectId) : Option Value :=
  let value := match m.idProperty? (w.typeOf id) with
    | some property => w.property? id property
    | none => w.identity? id
  value.filter fun v => !v.isNull

/-- The type of an object and its identity, as far as it has one. -/
def describe (m : Mapping) (w : World) (id : ObjectId) : String :=
  match m.idOf w id with
  | some value => w.typeOf id ++ "#" ++ w.text value
  | none => w.typeOf id

end Mapping

end RowGuard
