import RowGuard.Query.Rendering
import RowGuard.SecurityContext
import RowGuard.Text.Fresh

/-!
# The security context as parameters

Values of the security context never enter the text of a query.  Each part that
a rule refers to becomes a named parameter, the same one for all rules of a
query; a membership in the roles becomes a membership in as many parameters as
there are roles.
-/

namespace RowGuard.Restriction

open Query (ContextItem Label Phrase)

/-- A part of the context that has a parameter of its own. -/
inductive Source where
  | item (item : ContextItem)
  | attribute (name : String)
deriving DecidableEq

namespace Source

/-- What the names of the parameter start with. -/
def base : Source → String
  | .item .principal => "cp"
  | .item .tenant => "ct"
  | .item .roles => "crs"
  | .attribute name => name

def value (c : SecurityContext) : Source → Value
  | .item .principal => c.principal
  | .item .tenant => c.tenant
  | .item .roles => c.rolesValue
  | .attribute name => (c.attribute? name).getD .null

end Source

/-- The names that are taken, the parameters made so far with their sources, the
names of the roles once they have any, and all values. -/
structure ContextParameters where
  taken : List String
  made : List (Source × String) := []
  roles? : Option (List String) := none
  values : Bindings Value := []

abbrev Binder := StateM ContextParameters

/-- What the names of the parameters for roles start with. -/
def roleBase : String := "cr"

/-- A new parameter for a value. -/
def newParameter (base : String) (v : Value) : Binder String := do
  let state ← get
  let name := Text.Fresh.indexed base state.taken
  set { state with taken := name :: state.taken, values := state.values.bind name v }
  return name

/-- The parameter of a source. -/
def parameterFor (c : SecurityContext) (source : Source) : Binder Phrase := do
  match (← get).made.lookup source with
  | some name => return Phrase.namedParameter name
  | none =>
      let name ← newParameter source.base (source.value c)
      modify fun state => { state with made := (source, name) :: state.made }
      return Phrase.namedParameter name

/-- The parameters of the roles, one for each. -/
def roleParameters (c : SecurityContext) : Binder (List Phrase) := do
  match (← get).roles? with
  | some names => return names.map Phrase.namedParameter
  | none =>
      let names ← c.roles.mapM (newParameter roleBase)
      modify fun state => { state with roles? := some names }
      return names.map Phrase.namedParameter

mutual

/-- The phrase with every reference to the context replaced. -/
def bindContext (c : SecurityContext) : Phrase → Binder Phrase
  | .node label cs span =>
      match label, cs with
      | .context item, _ => parameterFor c (.item item)
      | .namedParameter name, _ => parameterFor c (.attribute name)
      | .isIn, [t, .node (.context .roles) _ _] =>
          if c.roles.isEmpty then return Phrase.alwaysFalse
          else do
            let roles ← roleParameters c
            let first ← bindContext c t
            return .node .isIn (first :: roles) span
      | _, cs => return .node label (← bindContextAll c cs) span

def bindContextAll (c : SecurityContext) : List Phrase → Binder (List Phrase)
  | [] => return []
  | t :: ts => do
      let first ← bindContext c t
      let others ← bindContextAll c ts
      return first :: others

end

/-- Whether a condition has a parameter for which the context has no value. -/
def isUnbindable (c : SecurityContext) (t : Phrase) : Bool :=
  t.contains fun n =>
    match n.label with
    | .positionalParameter _ => true
    | .namedParameter name => (c.attribute? name).isNone
    | _ => false

end RowGuard.Restriction
