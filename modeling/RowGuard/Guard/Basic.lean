import RowGuard.Guard.Context
import RowGuard.Query.Grammar.Statement
import RowGuard.Restriction.Query

/-!
# Guards

A guard knows the mapping and the policy, and decides.  For a query it gives the
restricted one, for an object and a way of using it the answer of the rules.
Texts of queries are read and checked once only.
-/

namespace RowGuard

open Query (AccessKind Statement Phrase)

structure Guard where
  mapping : Mapping
  policy : Policy
  strategies : List Strategy
  provider : ContextProvider
  /-- Whether answers about reading are remembered. -/
  remembersReads : Bool
  now : Timestamp
  store? : Option Store

namespace Guard

def evaluator (g : Guard) (w : World) : Evaluator :=
  { world := w, mapping := g.mapping, strategies := g.strategies
    store? := g.store?.map fun store => store.query w }

/-- The checked statement of a text. -/
def check (g : Guard) (text : String) : Except Fault Statement := do
  let t ← (Phrase.ofText text).mapError Fault.unreadable
  (Statement.ofPhrase (some g.mapping.model) t).mapError Fault.illScoped

/-- The checked statement of a text, from memory if it was checked before. -/
def statement (g : Guard) (text : String) : Action Statement := do
  match (← get).statements.find? text with
  | some s =>
      Action.count fun n => { n with statementCacheHits := n.statementCacheHits + 1 }
      return s
  | none =>
      Action.count fun n => { n with statementCacheMisses := n.statementCacheMisses + 1 }
      let s ← Action.ofOutcome (g.check text)
      modify fun situation =>
        { situation with statements := situation.statements.bind text s }
      return s

/-- The query of a text, restricted to what the context may access. -/
def restrict (g : Guard) (text : String) (kind : AccessKind) (c : SecurityContext) :
    Action RestrictedQuery := do
  let s ← g.statement text
  Action.count fun n => { n with queriesFiltered := n.queriesFiltered + 1 }
  let ev := g.evaluator (← get).world
  Action.ofTraced (Restriction.restrict ev g.policy s kind c g.now)

/-- What the rules say of using an object. -/
def decision (g : Guard) (w : World) (kind : AccessKind) (object : ObjectId)
    (c : SecurityContext) : Restriction.Decision :=
  Restriction.askRules (g.evaluator w) c g.now object
    (g.policy.rulesFor (w.typeOf object) kind)

/-- Whether a rule grants the context a way of using an object. -/
def isGranted (g : Guard) (kind : AccessKind) (object : ObjectId) (c : SecurityContext) :
    Action Bool := do
  let d := g.decision (← get).world kind object c
  Action.count fun n => { n with evaluations := n.evaluations + d.evaluations }
  Action.record (d.queries.map StoreCall.query)
  Action.ofOutcome d.outcome

end Guard

end RowGuard
