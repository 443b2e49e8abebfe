import RowGuard.Query.Grammar.Statement
import RowGuard.Restriction.Query

/-!
# Positional parameters of restricted queries

A store that takes named parameters only gets the positional ones under new
names, which avoid all others in the query and among its values.
-/

namespace RowGuard

open Query (Label Phrase)

namespace Restriction

/-- The names that stand for positions, in the order in which they were made, and
all names that are taken. -/
structure PositionNames where
  taken : List String
  made : List (Nat × String) := []

abbrev Positions := StateT PositionNames (Except Fault)

/-- The name for a position that has a value. -/
def positionName (values : List (Nat × Value)) (index : Nat) : Positions String := do
  let state ← get
  if (values.lookup index).isNone then
    StateT.lift (.error (.violation (.unboundPositional index)))
  else
    match state.made.lookup index with
    | some name => return name
    | none =>
        let name := Text.Fresh.underscored s!"positional_{index}" state.taken
        set { taken := name :: state.taken, made := state.made ++ [(index, name)]
              : PositionNames }
        return name

mutual

/-- The phrase with names for its positional parameters. -/
def nameParameters (values : List (Nat × Value)) : Phrase → Positions Phrase
  | .node (.positionalParameter index) _ _ => do
      let name ← positionName values index
      return Phrase.namedParameter name
  | .node label cs span => return .node label (← nameParametersAll values cs) span

def nameParametersAll (values : List (Nat × Value)) : List Phrase → Positions (List Phrase)
  | [] => return []
  | t :: ts => do
      let first ← nameParameters values t
      let others ← nameParametersAll values ts
      return first :: others

end

end Restriction

namespace RestrictedQuery

open Restriction

/-- The query with named parameters in place of positional ones. -/
def bindPositional (q : RestrictedQuery) (values : List (Nat × Value)) :
    Except Fault RestrictedQuery :=
  match q.text? with
  | none => .ok q
  | some text => do
      let t ← (Phrase.ofText text).mapError Fault.unreadable
      let start : PositionNames := { taken := q.parameters.names ++ t.namedParameters }
      let (named, final) ← (nameParameters values t).run start
      if final.made.isEmpty then return q
      else
        let bound := final.made.map fun (index, name) =>
          (name, (values.lookup index).getD .null)
        return { q with
          text? := some named.render, parameters := q.parameters.bindAll bound }

/-- Steps that change a restricted query where it is, up to one that fails. -/
abbrev InPlace := ExceptT Fault (StateM RestrictedQuery)

/-- Binds the name for a position, which has a value. -/
def bindName (values : List (Nat × Value)) : Nat × String → InPlace Unit
  | (index, name) =>
      match values.lookup index with
      | some value => modify fun q => { q with parameters := q.parameters.bind name value }
      | none => return

/-- Puts named parameters in place of the positional ones, step by step. -/
def bindInPlace (values : List (Nat × Value)) : InPlace Unit := do
  let q ← get
  match q.text? with
  | none => return
  | some text =>
      let t ← ofExcept ((Phrase.ofText text).mapError Fault.unreadable)
      let start : PositionNames := { taken := q.parameters.names ++ t.namedParameters }
      let (named, final) ← ofExcept ((nameParameters values t).run start)
      if final.made.isEmpty then return
      final.made.forM (bindName values)
      modify fun q => { q with text? := some named.render }

/-- The query with further parameters; those that it has keep their values. -/
def addParameters (q : RestrictedQuery) (more : Bindings Value) : RestrictedQuery :=
  { q with parameters := q.parameters ++ more.filter fun b => !q.parameters.binds b.1 }

end RestrictedQuery

end RowGuard
