import RowGuard.Query.Phrase

/-!
# Checked statements

A checked statement is a normal phrase together with what checking found out
about it: the aliases it declares, the paths it selects, its condition, its
parameters, and the subselects inside it, each checked in turn.
-/

namespace RowGuard.Query

inductive StatementKind where
  | select | update | delete | accessRule | subselect
deriving DecidableEq

namespace StatementKind

def name : StatementKind → String
  | .select => "Select"
  | .update => "Update"
  | .delete => "Delete"
  | .accessRule => "AccessRule"
  | .subselect => "Subselect"

/-- The kind of statement that a label stands for. -/
def ofLabel? : Label → Option StatementKind
  | .selectStatement => some .select
  | .updateStatement => some .update
  | .deleteStatement => some .delete
  | .accessRule _ => some .accessRule
  | .subselect => some .subselect
  | _ => none

end StatementKind

/-- An alias and what it ranges over: all entities of a type, or what a join
path leads to. -/
structure AliasDefinition where
  name : String
  type? : Option String
  joinPath? : Option String
  inner : Bool
  fetch : Bool
deriving DecidableEq

/-- The alias of a range over a type. -/
def AliasDefinition.range (name type : String) : AliasDefinition :=
  { name, type? := some type, joinPath? := none, inner := true, fetch := false }

def AliasDefinition.isJoin (d : AliasDefinition) : Bool := d.joinPath?.isSome

structure Statement where
  phrase : Phrase
  kind : StatementKind
  definitions : List AliasDefinition
  selectedPaths : List String
  condition? : Option Phrase
  /-- The named parameters, sorted and each once. -/
  parameters : List String
  positionalCount : Nat
  /-- The type of the objects that the select list makes, if it makes any. -/
  resultType? : Option String
  subselects : List Statement

namespace Statement

def definition? (s : Statement) (name : String) : Option AliasDefinition :=
  s.definitions.find? fun d => d.name == name

def aliases (s : Statement) : List String := s.definitions.map AliasDefinition.name

/-- The aliases that the selected paths start at, each once. -/
def selectedAliases (s : Statement) : List String :=
  (s.selectedPaths.map Text.Dotted.first).eraseDups

end Statement

/-- Strings in the order of their characters, each once. -/
def sortedNames (names : List String) : List String :=
  names.eraseDups.mergeSort fun a b => !decide (b < a)

mutual

/-- The paths that an item of a select list names, those of an aggregate or of
a result object included. -/
def Phrase.selectedPaths : Phrase → List String
  | .node (.identifier name) _ _ => [name]
  | .node .path cs span => ((Phrase.node .path cs span).dotted?).toList
  | .node (.aggregate _ _) cs _ | .node (.newObject _) cs _ | .node .brackets cs _ =>
      selectedPathsAll cs
  | _ => []

def Phrase.selectedPathsAll : List Phrase → List String
  | [] => []
  | t :: ts => t.selectedPaths ++ selectedPathsAll ts

end

def Label.isSelectClause : Label → Bool
  | .selectClause _ => true
  | _ => false

/-- The condition of a statement, without its clause. -/
def Phrase.conditionOf? (t : Phrase) : Option Phrase := do
  let clause ← t.findChild? (· = .whereClause)
  clause.children.head?

/-- The type of the objects that the first item of a select list makes. -/
def Phrase.resultType? (t : Phrase) : Option String := do
  let clause ← t.findChild? Label.isSelectClause
  let item ← clause.children.head?
  match item.label with
  | .newObject type => some type
  | _ => none

/-- The checked form of a phrase whose aliases and subselects are known. -/
def Statement.assemble (kind : StatementKind) (phrase : Phrase)
    (definitions : List AliasDefinition) (subselects : List Statement) : Statement where
  phrase := phrase
  kind := kind
  definitions := definitions
  selectedPaths := match kind with
    | .select | .subselect =>
        match phrase.findChild? Label.isSelectClause with
        | some clause => Phrase.selectedPathsAll clause.children
        | none => []
    | _ => (definitions.head?.map AliasDefinition.name).toList
  condition? := phrase.conditionOf?
  parameters := sortedNames phrase.namedParameters
  positionalCount := phrase.positionalParameters.eraseDups.length
  resultType? := phrase.resultType?
  subselects := subselects

end RowGuard.Query
