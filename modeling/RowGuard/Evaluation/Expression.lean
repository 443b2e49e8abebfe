import RowGuard.Evaluation.Environment
import RowGuard.Evaluation.Operation
import RowGuard.Navigation

/-!
# Expressions

An expression has a value, is undefined, or fails.  Conditions are told by their
truth: a conjunction is false as soon as one operand is, a disjunction true as
soon as one is, and otherwise one undecided operand leaves the whole undecided.
Operands behind the one that decides are not looked at.  An operation is
undefined as soon as one of its operands is.

What a subselect yields is left open here: it is a parameter.
-/

namespace RowGuard.Expression

open Query (Label Phrase ClockItem ContextItem)

def clock (env : Environment) : ClockItem → Value
  | .date => .date env.now.date
  | .time => .time env.now.time
  | .timestamp => .timestamp env.now

def ofContext (c : SecurityContext) : ContextItem → Value
  | .principal => c.principal
  | .roles => c.rolesValue
  | .tenant => c.tenant

/-- The value of a phrase without operands, undefined where nothing is bound. -/
def terminal? (env : Environment) : Label → Option (Except Fault (Option Value))
  | .clock item => some (.ok (some (clock env item)))
  | .context item => some (.ok (env.context?.map fun c => ofContext c item))
  | .identifier name => some (.ok (env.alias? name))
  | .namedParameter name => some (.ok (env.named? name))
  | .positionalParameter index => some (.ok (env.positional? index))
  | .stringLiteral text => some (.ok (some (.string (Text.Quoted.decode text))))
  | .integerLiteral text => some (Operation.integerLiteral text)
  | .decimalLiteral text => some (Operation.decimalLiteral text)
  | .booleanLiteral b => some (.ok (some (.boolean b)))
  | .null => some (.ok (some .null))
  | _ => none

/-- The segments of a path; a segment may hold points of its own. -/
def segmentsOf (segments : List Phrase) : List String :=
  Navigation.segments (Text.Dotted.join (segments.filterMap Phrase.text?))

/-- What a path leads to from the value of its root. -/
def follow (ev : Evaluator) (root : Value) (segments : List Phrase) :
    Except Fault (Option Value) :=
  if root.isNull then .ok (some .null)
  else do
    let vs ← Navigation.evaluateAll ev.mapping ev.world [root] (segmentsOf segments)
    return some (Value.collapse vs)

mutual

/-- The value of an expression, `sub` answering its subselects. -/
def value (ev : Evaluator) (sub : Phrase → Eval Value) (env : Environment) :
    Phrase → Eval Value
  | .node label cs span =>
      match terminal? env label with
      | some outcome => Eval.ofOutcome outcome
      | none =>
        if Operation.admits label cs.length then
          match label, cs with
          | .whereClause, [c] | .havingClause, [c] | .brackets, [c] => value ev sub env c
          | .or, cs => Eval.ofTruth (anyHolds ev sub env cs)
          | .and, cs => Eval.ofTruth (allHold ev sub env cs)
          | .not, [c] => Eval.ofTruth do
              let v ← (value ev sub env c).run
              return (← Traced.lift (Operation.truth ev.world v)).map Bool.not
          | .compare .equal, [left, right] => do
              let l ← value ev sub env left
              if l.isNull then return .boolean false
              let r ← value ev sub env right
              Eval.ofOutcome (Operation.compare ev.world .equal l r)
          | .between, [c, lower, upper] => do
              let v ← value ev sub env c
              if v.isNull then Eval.undefined
              else Eval.ofTruth do
                let low ← (value ev sub env lower).run
                let high ← (value ev sub env upper).run
                return Operation.isBetween v low high
          | .isIn, c :: items => do
              let v ← value ev sub env c
              if v.isNull then Eval.undefined else Eval.ofTruth (anyHas ev sub env v items)
          | .subselect, cs => sub (.node .subselect cs span)
          | .path, root :: segments => do
              let r ← value ev sub env root
              Eval.ofOutcome (follow ev r segments)
          | .path, [] => Eval.fail (.violation .emptyPath)
          | label, cs =>
              if Operation.isOperation label then do
                let vs ← values ev sub env cs
                Eval.ofOutcome (Operation.apply ev.world label vs)
              else Eval.fail (Operation.refusal label)
        else Eval.fail (.violation (.operandCount label cs.length))

/-- The values of expressions, undefined as soon as one of them is. -/
def values (ev : Evaluator) (sub : Phrase → Eval Value) (env : Environment) :
    List Phrase → Eval (List Value)
  | [] => return []
  | c :: cs => do
      let v ← value ev sub env c
      let vs ← values ev sub env cs
      return v :: vs

/-- Whether one of some conditions holds. -/
def anyHolds (ev : Evaluator) (sub : Phrase → Eval Value) (env : Environment) :
    List Phrase → Traced (Option Bool)
  | [] => return some false
  | c :: cs => do
      let v ← (value ev sub env c).run
      match ← Traced.lift (Operation.truth ev.world v) with
      | some true => return some true
      | some false => anyHolds ev sub env cs
      | none =>
          match ← anyHolds ev sub env cs with
          | some true => return some true
          | _ => return none

/-- Whether all of some conditions hold. -/
def allHold (ev : Evaluator) (sub : Phrase → Eval Value) (env : Environment) :
    List Phrase → Traced (Option Bool)
  | [] => return some true
  | c :: cs => do
      let v ← (value ev sub env c).run
      match ← Traced.lift (Operation.truth ev.world v) with
      | some false => return some false
      | some true => allHold ev sub env cs
      | none =>
          match ← allHold ev sub env cs with
          | some false => return some false
          | _ => return none

/-- Whether one of some expressions has a value among its elements. -/
def anyHas (ev : Evaluator) (sub : Phrase → Eval Value) (env : Environment) (v : Value) :
    List Phrase → Traced (Option Bool)
  | [] => return some false
  | c :: cs => do
      match ← (value ev sub env c).run with
      | some found =>
          if ev.world.member v found.items then return some true
          else anyHas ev sub env v cs
      | none =>
          match ← anyHas ev sub env v cs with
          | some true => return some true
          | _ => return none

end

/-- Clauses and brackets have the value of what they enclose. -/
theorem value_enclosing {ev : Evaluator} {sub : Phrase → Eval Value} {env : Environment}
    {l : Label} (hl : l = .whereClause ∨ l = .havingClause ∨ l = .brackets) (c : Phrase)
    (s : Source.Span) : value ev sub env (.node l [c] s) = value ev sub env c := by
  rcases hl with rfl | rfl | rfl <;>
    simp [value, terminal?, Operation.admits, Operation.operands]

end RowGuard.Expression
