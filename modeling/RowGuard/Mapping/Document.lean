import RowGuard.Document.Json
import RowGuard.Fault
import RowGuard.Mapping.Basic

/-!
# Mapping documents

The written form of a mapping: its classes, each with its properties, and its
named queries.  Fields that are not known are passed over; null may stand only
where there may be nothing, for the superclass and the identity property.

The description of a property is kept whole until its kind is known, so what
is passed over there must still be a sound value, and not nest too deep.
-/

namespace RowGuard.Mapping

open Document (Json)
open Query (PropertyType)

namespace Reading

/-- How deep the value of a field of a property may nest; the property itself
lies five levels deep in the document, which may have 127. -/
def propertyNesting : Nat := 122

/-- Whether the value of a field of a property can be kept. -/
def isKeepable (v : Json) : Bool := v.nesting ≤ propertyNesting && v.isWhole

/-- The kinds of properties, by their name or by their number. -/
inductive Kind where
  | basic | single | collection

def kind? : Json → Option Kind
  | .string (some "basic") | .number "0" => some .basic
  | .string (some "single_valued") | .number "1" => some .single
  | .string (some "collection_valued") | .number "2" => some .collection
  | _ => none

def propertyType? (fields : List (String × Json)) : Option PropertyType := do
  let kind ← kind? (← (← Json.field? fields "kind"))
  let target? : Option String := do (← (← Json.field? fields "target")).text?
  match kind with
  | .basic => return .basic
  | .single => return .entity (← target?)
  | .collection => return .collection (← target?)

def property? (j : Json) : Option Property := do
  let fields ← j.fields?
  let name ← (← (← Json.field? fields "name")).text?
  let type ← propertyType? fields
  if fields.all fun f => isKeepable f.2 then return ⟨name, type⟩ else none

def class? (j : Json) : Option EntityClass := do
  let fields ← Json.record?
    ["name", "superclass", "interfaces", "abstract", "id_property", "properties"] j
  match fields with
  | [name, superclass, interfaces, isAbstract, idProperty, properties] =>
      return {
        name := ← Json.required? Json.text? name
        superclass? := ← Json.optional? (Json.nullable? Json.text?) none superclass
        interfaces := ← Json.optional? (Json.list? Json.text?) [] interfaces
        isAbstract := ← Json.optional? Json.boolean? false isAbstract
        idProperty? := ← Json.optional? (Json.nullable? Json.text?) none idProperty
        properties := ← Json.optional? (Json.list? property?) [] properties }
  | _ => none

def namedQueries? (j : Json) : Option (Bindings String) := do
  let fields ← j.fields?
  let entries ← fields.mapM fun f => f.2.text?.map fun text => (f.1, text)
  return Bindings.ofList entries

def mapping? (j : Json) : Option Mapping := do
  match ← Json.record? ["classes", "named_queries"] j with
  | [classes, queries] => do
      let classes ← Json.required? (Json.list? class?) classes
      let queries ← Json.optional? namedQueries? [] queries
      return ofClasses classes queries
  | _ => none

end Reading

/-- The mapping that a document describes. -/
def ofText (text : String) : Except Fault Mapping :=
  match (Json.ofText? text).bind Reading.mapping? with
  | some m => .ok m
  | none => .error (.configuration .mappingDocument)

end RowGuard.Mapping
