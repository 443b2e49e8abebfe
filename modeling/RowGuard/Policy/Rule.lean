import RowGuard.Fault
import RowGuard.Mapping.Basic
import RowGuard.Query.Grammar.Statement
import RowGuard.Query.Scope

/-!
# Access rules

A rule grants ways of using the objects of a type.  It is checked once for each
concrete class that the type stands for, and becomes one rule of that class: so
a rule over an interface or an abstract class holds for all that implement or
extend it.  The rules of a class that come from one text share its position.
-/

namespace RowGuard

open Query (AccessKind Label ScopeError ScopeFault Statement Phrase)

/-- One rule as it applies to the objects of one class. -/
structure AccessRule where
  /-- The position of the text that the rule comes from. -/
  position : Nat
  source : String
  /-- The type that the text names. -/
  declaredType : String
  /-- The class that the rule applies to. -/
  entityName : String
  /-- The alias of the protected object. -/
  subject : String
  /-- The ways of using that are granted, each once. -/
  kinds : List AccessKind
  statement : Statement

namespace AccessRule

def grants (r : AccessRule) (kind : AccessKind) : Bool := r.kinds.contains kind

/-- What must hold for the grant; a rule without condition grants always. -/
def condition? (r : AccessRule) : Option Phrase := r.statement.condition?

/-- The kinds that a rule names, in their fixed order; naming none means all. -/
def kindsOf (named : List AccessKind) : List AccessKind :=
  if named.isEmpty then AccessKind.all else AccessKind.all.filter named.contains

/-- The same rule over another type. -/
def retarget (class_ : String) : Phrase → Phrase
  | .node label (entity :: rest) span =>
      .node label (.node (.entityName class_) entity.children entity.span :: rest) span
  | t => t

def misshapen (t : Phrase) : Fault :=
  .illScoped ⟨.invalidRule "expected an entity type and an alias", t.span⟩

/-- The rules that one text stands for. -/
def ofText (m : Mapping) (position : Nat) (source : String) :
    Except Fault (List AccessRule) := do
  let t ← (Phrase.ruleOfText source).mapError Fault.unreadable
  match t.label, t.child? 0, (t.child? 1).bind Phrase.identifier? with
  | .accessRule named, some (.node (.entityName declared) _ span), some subject => do
      let classes := m.concreteClasses declared
      if classes.isEmpty then
        .error (.illScoped ⟨ScopeFault.unknownRuleEntity declared, span⟩)
      else
        classes.mapM fun c => do
          let statement ← (Statement.ofPhrase (some m.model) (retarget c.name t)).mapError
            Fault.illScoped
          return {
            position, source, declaredType := declared, entityName := c.name, subject
            kinds := kindsOf named, statement }
  | _, _, _ => .error (misshapen t)

end AccessRule

/-- The rules in force, in the order of their texts. -/
structure Policy where
  rules : List AccessRule := []

namespace Policy

def textsFrom (m : Mapping) (position : Nat) : List String → Except Fault (List AccessRule)
  | [] => .ok []
  | text :: texts => do
      let first ← AccessRule.ofText m position text
      let others ← textsFrom m (position + 1) texts
      return first ++ others

/-- The policy that some texts lay down. -/
def ofTexts (m : Mapping) (texts : List String) : Except Fault Policy := do
  return { rules := ← textsFrom m 0 texts }

/-- The rules that grant a way of using the objects of a class. -/
def rulesFor (p : Policy) (entity : String) (kind : AccessKind) : List AccessRule :=
  p.rules.filter fun r => r.entityName == entity && r.grants kind

/-- Whether the rules of a class include one from the same text. -/
def covers (p : Policy) (kind : AccessKind) (r : AccessRule) (entity : String) : Bool :=
  (p.rulesFor entity kind).any fun other => other.position == r.position

/-- Keeps the first rule of each text. -/
def firstOfText (seen : List Nat) : List AccessRule → List AccessRule
  | [] => []
  | r :: rest =>
      if seen.contains r.position then firstOfText seen rest
      else r :: firstOfText (r.position :: seen) rest

/-- The rules that can restrict a query over a type.  Such a query gives objects
of several classes, so only rules that cover all of them are of use; each text
is represented by its rule for the first class. -/
def rulesForType (p : Policy) (m : Mapping) (type : String) (kind : AccessKind) :
    List AccessRule :=
  match (m.concreteClasses type).map EntityClass.name with
  | [] => p.rulesFor type kind
  | first :: others =>
      firstOfText [] ((p.rulesFor first kind).filter fun r => others.all (p.covers kind r))

end Policy

end RowGuard
