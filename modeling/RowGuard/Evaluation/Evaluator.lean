import RowGuard.Evaluation.Delegation
import RowGuard.Evaluation.Enumeration
import RowGuard.Evaluation.Expression
import RowGuard.Query.Scope

/-!
# Evaluation

Evaluating a subselect evaluates expressions again, but only such as have fewer
subselects nested in them.  So the evaluator is built up by nesting depth, and
an expression is evaluated at its own.

A subselect is checked first in the scope of what is bound; one that refers to
an alias that is not bound is undefined.  Then the strategies are tried in their
order, until one gives rows or fails for another reason than that it cannot
decide.
-/

namespace RowGuard

open Query (Label Statement Phrase)

mutual

/-- How many subselects are nested in one another. -/
def Query.Phrase.depth : Phrase → Nat
  | .node label cs _ => Query.Phrase.depthAll cs + if label = .subselect then 1 else 0

def Query.Phrase.depthAll : List Phrase → Nat
  | [] => 0
  | t :: ts => max t.depth (Query.Phrase.depthAll ts)

end

namespace Evaluator

/-- The rows by the first strategy that can decide. -/
def firstDecision (answer : Strategy → Traced (List Value)) :
    List Strategy → Traced (Option (List Value))
  | [] => return none
  | s :: rest =>
      let first := answer s
      match first.outcome with
      | .ok rows => ⟨.ok (some rows), first.queries⟩
      | .error (.undecidable _) =>
          let later := firstDecision answer rest
          ⟨later.outcome, first.queries ++ later.queries⟩
      | .error e => ⟨.error e, first.queries⟩

/-- The rows of a checked subselect by one strategy. -/
def answerBy (ev : Evaluator) (evaluate : Environment → Phrase → Eval Value)
    (env : Environment) (s : Statement) : Strategy → Traced (List Value)
  | .simple => Enumeration.answer ev evaluate env s
  | .persistenceSession => Delegation.answer ev (evaluate env) env s

/-- The rows of a subselect where it stands. -/
def subselect (ev : Evaluator) (evaluate : Environment → Phrase → Eval Value)
    (env : Environment) (t : Phrase) : Eval Value :=
  match Statement.ofSubselect (some ev.mapping.model) (env.scope ev.world) t with
  | .error e =>
      match e.fault with
      | .unresolvedAlias _ => Eval.undefined
      | _ => Eval.fail (.illScoped e)
  | .ok s => do
      let rows ← OptionT.mk (firstDecision (answerBy ev evaluate env s) ev.strategies)
      return .collection rows

/-- The value of an expression with at most `depth` nested subselects. -/
def valueAt (ev : Evaluator) : Nat → Environment → Phrase → Eval Value
  | 0, env, t => Expression.value ev (fun _ => Eval.undefined) env t
  | depth + 1, env, t => Expression.value ev (ev.subselect (ev.valueAt depth) env) env t

/-- The value of an expression. -/
def value (ev : Evaluator) (env : Environment) (t : Phrase) : Eval Value :=
  ev.valueAt t.depth env t

/-- The truth of a condition, none being undecided. -/
def truth (ev : Evaluator) (env : Environment) (t : Phrase) : Traced (Option Bool) := do
  let v ← (ev.value env t).run
  Traced.lift (Operation.truth ev.world v)

end Evaluator

end RowGuard
