import RowGuard.Query.Description
import RowGuard.Query.ScopeError
import RowGuard.Source.SyntaxError

/-!
# Faults

Why a question has no answer.  A fault is a cause; its message is made from it
on demand.  Causes that are told by a part outside of this library, the store or
whoever knows the current user, carry their text as it is.
-/

namespace RowGuard

open Query (AccessKind Label ScopeError)

/-- An object does not fit the mapping. -/
inductive MappingFault where
  | notNavigable (segment type : String)
  | unknownProperty (property entity : String)
  | unknownEntity (name : String)
  | told (text : String)

def MappingFault.message : MappingFault → String
  | .notNavigable segment type => s!"cannot navigate '{segment}' on a {type} value"
  | .unknownProperty property entity =>
      s!"unknown property '{property}' on entity '{entity}'"
  | .unknownEntity name => s!"unknown entity '{name}'"
  | .told text => text

/-- An expression whose value cannot be found in memory. -/
inductive Undecidability where
  | label (l : Label)
  | aggregation
  | noReplacement (name : String)
  | undefinedReplacement (name : String)
  | cyclicReplacements
  | tooManyVariants
  | undefinedCondition
  | undefinedSelection (path : String)
  | noStore
  | unboundNamed (name : String)
  | unboundPositional (index : Nat)
  | unboundAlias (name : String)
  | undefinedOuter (text : String)
  | outerJoinPath
  | noContext
  | told (text : String)

def Undecidability.message : Undecidability → String
  | .label l => l.describe ++ " cannot be evaluated in memory"
  | .aggregation => "aggregating subselect"
  | .noReplacement name => s!"no replacement for alias '{name}'"
  | .undefinedReplacement name => s!"replacement for alias '{name}' is undefined"
  | .cyclicReplacements => "cyclic alias replacements"
  | .tooManyVariants => "too many alias combinations"
  | .undefinedCondition => "condition undefined for a candidate"
  | .undefinedSelection path => s!"selected path '{path}' is undefined"
  | .noStore => "no persistence session"
  | .unboundNamed name => s!"parameter :{name} is not bound"
  | .unboundPositional index => s!"parameter ?{index} is not bound"
  | .unboundAlias name => s!"outer alias '{name}' is not bound"
  | .undefinedOuter text => s!"'{text}' is undefined"
  | .outerJoinPath => "subselect joins over an outer alias"
  | .noContext => "no security context"
  | .told text => text

/-- A phrase or a call that makes no sense. -/
inductive Violation where
  | operandCount (l : Label) (count : Nat)
  | notAnExpression (l : Label)
  | notACondition (type : String)
  | emptyPath
  | notNumeric (operation type : String)
  | notText (function type : String)
  | notInteger (function type : String)
  | outOfRange (function value : String)
  | notOneCharacter (function text : String)
  | numericLiteral (text : String)
  | unboundPositional (index : Nat)
  | unmatchedCheck
  | severalResults (count : Nat)
  | told (text : String)

def Violation.message : Violation → String
  | .operandCount l count => l.describe ++ s!" has {count} operands"
  | .notAnExpression l => "cannot evaluate " ++ l.describe ++ " as an expression"
  | .notACondition type => s!"expected a condition, found a {type} value"
  | .emptyPath => "empty path"
  | .notNumeric operation type => s!"{operation} expects numeric operands, found {type}"
  | .notText function type => s!"{function} expects string operands, found {type}"
  | .notInteger function type => s!"{function} expects an integer, found {type}"
  | .outOfRange function value => s!"{function} argument {value} is out of range"
  | .notOneCharacter function text =>
      s!"{function} expects a single character, found '{text}'"
  | .numericLiteral text => s!"invalid numeric literal '{text}'"
  | .unboundPositional index => s!"parameter ?{index} is not bound"
  | .unmatchedCheck => "check_now called without a matching delay_checks"
  | .severalResults count => s!"expected at most one result, got {count}"
  | .told text => text

/-- A setting that cannot be used. -/
inductive ConfigurationFault where
  | mappingDocument
  | rulesDocument
  | unknownNamedQuery (name : String)
  | told (text : String)

def ConfigurationFault.message : ConfigurationFault → String
  | .mappingDocument => "invalid mapping document"
  | .rulesDocument => "invalid access rules document"
  | .unknownNamedQuery name => s!"unknown named query {name}"
  | .told text => text

inductive Fault where
  | unreadable (e : Source.SyntaxError)
  | illScoped (e : ScopeError)
  | mapping (reason : MappingFault)
  | undecidable (reason : Undecidability)
  /-- No rule grants the access, or finding out failed. -/
  | accessDenied (entity : String) (kind : AccessKind) (cause? : Option Fault)
  | violation (reason : Violation)
  | security (text : String)
  | session (text : String)
  | configuration (reason : ConfigurationFault)

namespace Fault

instance : Inhabited Fault := ⟨.violation .emptyPath⟩

def message : Fault → String
  | .unreadable e => "parse error: " ++ e.message
  | .illScoped e => "compile error: " ++ e.message
  | .mapping reason => "mapping error: " ++ reason.message
  | .undecidable reason => "not evaluatable: " ++ reason.message
  | .accessDenied entity kind _ => s!"{kind.text} access to {entity} denied"
  | .violation reason => "invariant violation: " ++ reason.message
  | .security text => "security error: " ++ text
  | .session text => "session error: " ++ text
  | .configuration reason => "configuration error: " ++ reason.message

/-- Faults that are about the access itself and not about the question. -/
def isSecurity : Fault → Bool
  | .accessDenied _ _ _ | .security _ => true
  | _ => false

end Fault

end RowGuard
