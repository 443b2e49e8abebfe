import RowGuard.Guard.Basic
import RowGuard.Policy.Document

/-!
# Configurations

Where the rules and the current user come from, how subselects are answered and
whether answers about reading are remembered.
-/

namespace RowGuard

/-- Where the texts of the rules come from. -/
inductive RuleSource where
  | texts (texts : List String)
  | document (text : String)

def RuleSource.read : RuleSource → Except Fault (List String)
  | .texts ts => .ok ts
  | .document t => Policy.textsOfDocument t

structure Configuration where
  rules : RuleSource := .texts []
  provider : ContextProvider := .current
  strategies : List Strategy := Strategy.defaults
  remembersReads : Bool := true
  now : Timestamp

namespace Configuration

/-- The policy that the rules lay down for a mapping. -/
def policy (c : Configuration) (m : Mapping) : Except Fault Policy := do
  let texts ← c.rules.read
  Policy.ofTexts m texts

def guard (c : Configuration) (m : Mapping) (policy : Policy) (store? : Option Store) :
    Guard :=
  { mapping := m, policy, strategies := c.strategies, provider := c.provider
    remembersReads := c.remembersReads, now := c.now, store? }

/-- The configuration as a report shows it. -/
def inspect (c : Configuration) : String :=
  "Configuration \x7b evaluators: [" ++ ", ".intercalate (c.strategies.map Strategy.name)
    ++ "], cache_read_access: " ++ toString c.remembersReads ++ ", .. \x7d"

end Configuration

end RowGuard
