import RowGuard.Mapping.Basic
import RowGuard.Query.Statement
import RowGuard.SecurityContext
import RowGuard.Evaluation.Traced

/-!
# Environments

What the names in an expression stand for: aliases, named and positional
parameters, the security context and the clock.  Beside it stands what is the
same for a whole evaluation: the world and its mapping, the ways of answering a
subselect in the order in which they are tried, and the store, if there is one.
-/

namespace RowGuard

structure Environment where
  aliases : Bindings Value := []
  named : Bindings Value := []
  positional : List (Nat × Value) := []
  context? : Option SecurityContext := none
  now : Timestamp

namespace Environment

def alias? (env : Environment) (name : String) : Option Value := env.aliases.find? name

def named? (env : Environment) (name : String) : Option Value := env.named.find? name

def positional? (env : Environment) (index : Nat) : Option Value :=
  env.positional.lookup index

def bindAlias (env : Environment) (name : String) (value : Value) : Environment :=
  { env with aliases := env.aliases.bind name value }

def bindAliases (env : Environment) (more : Bindings Value) : Environment :=
  { env with aliases := env.aliases.bindAll more }

def unbindAliases (env : Environment) (names : List String) : Environment :=
  { env with aliases := env.aliases.unbindAll names }

/-- The bound aliases as the scope of a subselect; objects tell their type. -/
def scope (env : Environment) (w : World) : List Query.AliasDefinition :=
  env.aliases.map fun b =>
    { name := b.1, type? := b.2.entity?.map w.typeOf, joinPath? := none, inner := true
      fetch := false }

end Environment

/-- A way of answering a subselect. -/
inductive Strategy where
  /-- By trying the objects that the condition names. -/
  | simple
  /-- By asking the store. -/
  | persistenceSession
deriving DecidableEq

namespace Strategy

def defaults : List Strategy := [.simple, .persistenceSession]

def name : Strategy → String
  | .simple => "Simple"
  | .persistenceSession => "PersistenceSession"

end Strategy

structure Evaluator where
  world : World
  mapping : Mapping
  strategies : List Strategy := []
  /-- What the store answers, if there is one. -/
  store? : Option (StoreQuery → Except Fault (List Value)) := none

end RowGuard
