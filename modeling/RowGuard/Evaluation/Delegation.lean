import RowGuard.Evaluation.Environment
import RowGuard.Query.Rendering
import RowGuard.Text.Fresh

/-!
# Subselects by the store

The store can answer a subselect once the subselect stands alone.  Whatever it
takes from around it, outer aliases, the security context and positional
parameters, is evaluated beforehand and becomes a named parameter; expressions
that are written alike share one.  The new names avoid those that the subselect
uses itself.
-/

namespace RowGuard.Delegation

open Query (ContextItem Label Phrase Statement)

/-- The parameters made so far: the names that are taken, the name for each
replaced text, and the values. -/
structure State where
  taken : List String
  made : Bindings String
  parameters : Bindings Value

abbrev Closing := StateT State Traced

def fail {α : Type} (reason : Undecidability) : Closing α :=
  StateT.lift (Traced.fail (.undecidable reason))

/-- The parameter for an expression with a value. -/
def parameter (t : Phrase) (base : String) (v : Value) : Closing Phrase := do
  let state ← get
  match state.made.find? t.render with
  | some name => return Phrase.namedParameter name
  | none =>
      let name := Text.Fresh.suffixed base state.taken
      set { taken := name :: state.taken
            made := state.made.bind t.render name
            parameters := state.parameters.bind name v : State }
      return Phrase.namedParameter name

def contextBase : ContextItem → String
  | .principal => "current_principal"
  | .roles => "current_roles"
  | .tenant => "current_tenant"

def contextValue (c : SecurityContext) : ContextItem → Value
  | .principal => c.principal
  | .roles => c.rolesValue
  | .tenant => c.tenant

/-- Replaces a name or a path that starts at an outer alias. -/
def closeReference (evaluate : Phrase → Eval Value) (env : Environment)
    (declared : List String) (t : Phrase) : Closing Phrase :=
  match t.rootAlias? with
  | none => return t
  | some name =>
      if declared.contains name then return t
      else if (env.alias? name).isNone then fail (.unboundAlias name)
      else do
        match ← StateT.lift (evaluate t).run with
        | none => fail (.undefinedOuter t.render)
        | some v => parameter t s!"outer_{name}" v

/-- Join paths stay as they are, so they must not start outside. -/
def checkJoin (declared : List String) (t : Phrase) : Closing Phrase :=
  match (t.child? 0).bind Phrase.rootAlias? with
  | some name => if declared.contains name then return t else fail .outerJoinPath
  | none => return t

mutual

/-- The phrase with all that it takes from outside replaced, `declared` being the
aliases that are its own. -/
def close (evaluate : Phrase → Eval Value) (env : Environment) (declared : List String) :
    Phrase → Closing Phrase
  | .node label cs span =>
      let t := Phrase.node label cs span
      match label with
      | .subselect => do
          let inner ← closeAll evaluate env (declared ++ t.declaredAliases) cs
          return .node label inner span
      | .join _ _ => checkJoin declared t
      | .identifier _ | .path => closeReference evaluate env declared t
      | .context item =>
          match env.context? with
          | some c => parameter t (contextBase item) (contextValue c item)
          | none => fail .noContext
      | .positionalParameter index =>
          match env.positional? index with
          | some v => parameter t s!"positional_{index}" v
          | none => fail (.unboundPositional index)
      | _ => do
          let inner ← closeAll evaluate env declared cs
          return .node label inner span

def closeAll (evaluate : Phrase → Eval Value) (env : Environment)
    (declared : List String) : List Phrase → Closing (List Phrase)
  | [] => return []
  | t :: ts => do
      let first ← close evaluate env declared t
      let others ← closeAll evaluate env declared ts
      return first :: others

end

/-- The aliases that a subselect declares are its own in all of its clauses. -/
theorem close_subselect (evaluate : Phrase → Eval Value) (env : Environment)
    (declared : List String) (cs : List Phrase) (s : Source.Span) :
    close evaluate env declared (.node .subselect cs s) = (do
      let inner ← closeAll evaluate env
        (declared ++ (Phrase.node .subselect cs s).declaredAliases) cs
      return .node .subselect inner s) := by
  simp [close]

/-- The values of the parameters that a subselect has already. -/
def ownParameters (env : Environment) : List String → Except Fault (Bindings Value)
  | [] => .ok []
  | name :: names =>
      match env.named? name with
      | none => .error (.undecidable (.unboundNamed name))
      | some v => do
          let others ← ownParameters env names
          return (name, v) :: others

/-- The select statement that means what a subselect means where it stands. -/
def standalone (evaluate : Phrase → Eval Value) (env : Environment) (s : Statement) :
    Traced (Phrase × Bindings Value) := do
  let own ← Traced.lift (ownParameters env s.parameters)
  let start : State := { taken := s.parameters, made := [], parameters := own }
  let (clauses, final) ← (closeAll evaluate env s.aliases s.phrase.children).run start
  return (.node .selectStatement clauses s.phrase.span, final.parameters)

/-- The rows that the store has for a subselect. -/
def answer (ev : Evaluator) (evaluate : Phrase → Eval Value) (env : Environment)
    (s : Statement) : Traced (List Value) :=
  match ev.store? with
  | none => Traced.fail (.undecidable .noStore)
  | some store => do
      let (statement, parameters) ← standalone evaluate env s
      let query : StoreQuery := ⟨statement.render, parameters⟩
      { outcome := store query, queries := [query] }

end RowGuard.Delegation
