/-!
# Type models

All that checking a statement needs to know of the entity types: which names
are types, and where a property of a type leads.
-/

namespace RowGuard.Query

/-- What a property holds, as far as paths are concerned. -/
inductive PropertyType where
  /-- A plain value, where a path ends. -/
  | basic
  /-- One entity of a type. -/
  | entity (target : String)
  /-- Several entities of a type. -/
  | collection (target : String)
deriving DecidableEq

/-- The type that a path reaches through a property. -/
def PropertyType.target? : PropertyType → Option String
  | .basic => none
  | .entity target | .collection target => some target

structure TypeModel where
  hasEntity : String → Bool
  propertyType? : (entity property : String) → Option PropertyType

end RowGuard.Query
