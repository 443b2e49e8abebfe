import RowGuard.Query.Model
import RowGuard.Query.NormalForm
import RowGuard.Query.ScopeError
import RowGuard.Query.Statement

/-!
# Scopes

A statement sees the aliases it declares itself and those of the statements
around it, the nearest first.  Ranges are declared before joins, so that a join
path may start at any range but only at joins before it.  With a type model
every type and every property along a path is looked up as well; without one
they are taken on trust.
-/

namespace RowGuard.Query

namespace Scope

abbrev Checked := Except ScopeError

/-- The definition that an alias refers to; the one declared last is nearest. -/
def find? (scope : List AliasDefinition) (name : String) : Option AliasDefinition :=
  scope.reverse.find? fun d => d.name == name

def resolve (scope : List AliasDefinition) (name : String) (span : Source.Span) :
    Checked AliasDefinition :=
  match find? scope name with
  | some d => .ok d
  | none => .error ⟨.unresolvedAlias name, span⟩

/-- The type behind the segments of a path, `owner?` being the type of what
stands before them and `previous` its name in the path.  Segments without a
text are not looked at any further. -/
def typeBehind (model : TypeModel) (owner? : Option String) (previous : String) :
    List Phrase → Checked (Option String)
  | [] => .ok owner?
  | segment :: rest =>
      match segment.text? with
      | none => .ok none
      | some name =>
          match owner? with
          | none => .error ⟨.unknownProperty previous name, segment.span⟩
          | some owner =>
              match model.propertyType? owner name with
              | none => .error ⟨.unknownProperty owner name, segment.span⟩
              | some type => typeBehind model type.target? name rest

/-- The root of an expression and the segments behind it. -/
def rootAndSegments : Phrase → Option (Phrase × List Phrase)
  | .node .path [] _ => none
  | .node .path (root :: segments) _ => some (root, segments)
  | t => some (t, [])

/-- The entity type of a name or a path, where the model tells it. -/
def typeOf (model? : Option TypeModel) (scope : List AliasDefinition) (t : Phrase) :
    Checked (Option String) :=
  match rootAndSegments t with
  | none => .ok none
  | some (root, segments) =>
      match root.label with
      | .identifier name => do
          let d ← resolve scope name root.span
          match model?, d.type? with
          | some model, some type => typeBehind model (some type) name segments
          | _, _ => return none
      | _ => .ok none

/-! ## Declarations -/

/-- Adds a definition unless its alias is already declared. -/
def declare (declared : List AliasDefinition) (d : AliasDefinition)
    (span : Source.Span) : Checked (List AliasDefinition) :=
  if declared.any fun e => e.name == d.name then .error ⟨.duplicateAlias d.name, span⟩
  else .ok (declared ++ [d])

/-- Where a statement of a kind declares its ranges. -/
def ranges (kind : StatementKind) (t : Phrase) : List Phrase :=
  match kind with
  | .select | .subselect =>
      ((t.findChild? (· = .fromClause)).map Phrase.children).getD []
  | .update => (t.findChild? (· = .updateClause)).toList
  | .delete => (t.findChild? (· = .deleteClause)).toList
  | .accessRule => [t]

/-- The entity name and the alias of a range, as nodes with their texts. -/
def rangeParts? (range : Phrase) : Option ((Phrase × String) × (Phrase × String)) := do
  let entity ← range.child? 0
  let name ← range.child? 1
  match entity.label, name.label with
  | .entityName e, .identifier a => some ((entity, e), (name, a))
  | _, _ => none

def unknownEntity (kind : StatementKind) (name : String) : ScopeFault :=
  if kind = .accessRule then .unknownRuleEntity name else .unknownEntity name

def declareRange (model? : Option TypeModel) (kind : StatementKind)
    (declared : List AliasDefinition) (range : Phrase) : Checked (List AliasDefinition) :=
  match rangeParts? range with
  | none => .error ⟨.invalidStatement .noRange, range.span⟩
  | some ((entity, entityName), (name, aliasName)) =>
      if model?.any fun m => !m.hasEntity entityName then
        .error ⟨unknownEntity kind entityName, entity.span⟩
      else declare declared (.range aliasName entityName) name.span

/-- Declares the alias of a join, if it has one; the path is checked first. -/
def declareJoin (model? : Option TypeModel) (outer : List AliasDefinition)
    (declared : List AliasDefinition) (join : Phrase) : Checked (List AliasDefinition) :=
  match join.label, join.child? 0 with
  | .join outerJoin fetch, some path => do
      let type? ← typeOf model? (outer ++ declared) path
      match join.child? 1 with
      | none => return declared
      | some name =>
          match name.identifier? with
          | none => return declared
          | some aliasName =>
              declare declared
                { name := aliasName, type?, joinPath? := path.dotted?
                  inner := !outerJoin, fetch }
                name.span
  | _, _ => .ok declared

/-- The aliases that a statement declares, its ranges first. -/
def declarations (model? : Option TypeModel) (kind : StatementKind)
    (outer : List AliasDefinition) (t : Phrase) : Checked (List AliasDefinition) := do
  let rs := ranges kind t
  let declared ← rs.foldlM (declareRange model? kind) []
  (rs.flatMap fun r => r.children.drop 2).foldlM (declareJoin model? outer) declared

/-! ## Checking -/

/-- Children of a statement that declare names and refer to none. -/
def declaresOnly : Label → Bool
  | .fromClause | .updateClause | .deleteClause | .entityName _ | .identifier _ => true
  | _ => false

mutual

/-- Checks all references below a node and gives the checked subselects. -/
def check (model? : Option TypeModel) (scope : List AliasDefinition) :
    Phrase → Checked (List Statement)
  | .node (.identifier name) _ span => do
      let _ ← resolve scope name span
      return []
  | .node .path cs span => do
      let _ ← typeOf model? scope (.node .path cs span)
      checkParts model? scope cs
  | .node .subselect cs span => do
      let phrase := Phrase.node .subselect cs span
      let definitions ← declarations model? .subselect scope phrase
      let subselects ← checkClauses model? (scope ++ definitions) cs
      return [.assemble .subselect phrase definitions subselects]
  | .node _ cs _ => checkAll model? scope cs

def checkAll (model? : Option TypeModel) (scope : List AliasDefinition) :
    List Phrase → Checked (List Statement)
  | [] => .ok []
  | t :: ts => do
      let first ← check model? scope t
      let others ← checkAll model? scope ts
      return first ++ others

/-- Checks the parts of a path that are neither names nor segments. -/
def checkParts (model? : Option TypeModel) (scope : List AliasDefinition) :
    List Phrase → Checked (List Statement)
  | [] => .ok []
  | t :: ts => do
      let first ← match t.label with
        | .identifier _ | .segment _ => pure []
        | _ => check model? scope t
      let others ← checkParts model? scope ts
      return first ++ others

/-- Checks the children of a statement. -/
def checkClauses (model? : Option TypeModel) (scope : List AliasDefinition) :
    List Phrase → Checked (List Statement)
  | [] => .ok []
  | t :: ts => do
      let first ← if declaresOnly t.label then pure [] else check model? scope t
      let others ← checkClauses model? scope ts
      return first ++ others

end

/-- Checks a normal phrase as a statement of a kind inside an outer scope. -/
def statement (model? : Option TypeModel) (kind : StatementKind)
    (outer : List AliasDefinition) (t : Phrase) : Checked Statement := do
  let definitions ← declarations model? kind outer t
  let subselects ← checkClauses model? (outer ++ definitions) t.children
  return .assemble kind t definitions subselects

end Scope

/-- The checked form of a statement. -/
def Statement.ofPhrase (model? : Option TypeModel) (t : Phrase) :
    Except ScopeError Statement :=
  let normal := t.normalize
  match StatementKind.ofLabel? normal.label with
  | some kind => Scope.statement model? kind [] normal
  | none => .error ⟨.invalidStatement .noStatement, normal.span⟩

/-- The checked form of a subselect inside an outer scope. -/
def Statement.ofSubselect (model? : Option TypeModel)
    (outer : List AliasDefinition) (t : Phrase) : Except ScopeError Statement :=
  if t.label = .subselect then Scope.statement model? .subselect outer t.normalize
  else .error ⟨.invalidStatement .noSubselect, t.span⟩

end RowGuard.Query
