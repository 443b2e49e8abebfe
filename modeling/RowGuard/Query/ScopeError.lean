import RowGuard.Source.Excerpt

/-!
# Checking errors

The reasons why a statement that reads well is refused all the same.
-/

namespace RowGuard.Query

/-- What is wrong with the shape of a statement. -/
inductive StatementDefect where
  | noStatement
  | noSubselect
  | noRange
deriving DecidableEq

def StatementDefect.message : StatementDefect → String
  | .noStatement => "expected a SELECT, UPDATE, DELETE or GRANT statement"
  | .noSubselect => "expected a subselect"
  | .noRange => "expected an entity name and an alias"

inductive ScopeFault where
  | unknownEntity (name : String)
  | unknownProperty (entity property : String)
  /-- No range and no join in scope declares the alias. -/
  | unresolvedAlias (name : String)
  | duplicateAlias (name : String)
  | invalidStatement (defect : StatementDefect)
  | invalidRule (reason : String)
deriving DecidableEq

namespace ScopeFault

def name : ScopeFault → String
  | .unknownEntity _ => "UnknownEntity"
  | .unknownProperty _ _ => "UnknownProperty"
  | .unresolvedAlias _ => "UnresolvedAlias"
  | .duplicateAlias _ => "DuplicateAlias"
  | .invalidStatement _ => "InvalidStatement"
  | .invalidRule _ => "InvalidRule"

def message : ScopeFault → String
  | .unknownEntity name => s!"unknown entity '{name}'"
  | .unknownProperty entity property =>
      s!"unknown property '{property}' on entity '{entity}'"
  | .unresolvedAlias name => s!"unresolved alias '{name}'"
  | .duplicateAlias name => s!"alias '{name}' is declared more than once"
  | .invalidStatement defect => defect.message
  | .invalidRule reason => reason

/-- A rule over a type that does not exist. -/
def unknownRuleEntity (name : String) : ScopeFault :=
  .invalidRule s!"access rule refers to unknown entity '{name}'"

end ScopeFault

/-- A fault and the place it was found at. -/
structure ScopeError where
  fault : ScopeFault
  span : Source.Span
deriving DecidableEq

namespace ScopeError

def message (e : ScopeError) : String := e.fault.message

/-- The fault, its place and the excerpt, one below the other. -/
def report (source : String) (e : ScopeError) : String :=
  let place := Source.Position.ofOffset source e.span.start
  s!"error[{e.fault.name}]: {e.message}\n  --> line {place.text}\n"
    ++ Source.excerpt source e.span

end ScopeError

end RowGuard.Query
