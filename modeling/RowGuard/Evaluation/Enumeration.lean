import RowGuard.Evaluation.Environment
import RowGuard.Evaluation.Operation

/-!
# Subselects by enumeration

A subselect can be answered without the store when its own condition names the
objects that its aliases stand for: a range alias is equated with an expression,
and a join alias follows a path.  The candidates of each alias are found once the
aliases they depend on are bound, the condition is evaluated for every
combination, and the selected paths are read off the combinations that meet it.

Whatever the condition leaves open makes the whole answer undecidable, since a
combination that was missed could change it.
-/

namespace RowGuard.Enumeration

open Query (Label Phrase Statement AliasDefinition)

/-- The greatest number of combinations that are tried. -/
def maxVariants : Nat := 10000

def undecidable {α : Type} (reason : Undecidability) : Traced α :=
  Traced.fail (.undecidable reason)

/-! ## Replacements -/

/-- Whether a select statement groups or aggregates its rows. -/
def aggregates (t : Phrase) : Bool :=
  t.children.any fun clause =>
    match clause.label with
    | .groupByClause | .havingClause => true
    | .selectClause _ => clause.contains fun n =>
        match n.label with
        | .aggregate _ _ => true
        | _ => false
    | _ => false

mutual

/-- The conditions that must all hold for a condition to hold. -/
def conjuncts : Phrase → List Phrase
  | .node .and cs _ => conjunctsAll cs
  | .node .brackets [c] _ => conjuncts c
  | t => [t]

def conjunctsAll : List Phrase → List Phrase
  | [] => []
  | t :: ts => conjuncts t ++ conjunctsAll ts

end

/-- The aliases among `aliases` that an expression names outside of subselects. -/
def named (aliases : List String) (t : Phrase) : List String :=
  ((t.visit fun n => n.label != .subselect).filterMap Phrase.identifier?).filter
    aliases.contains |>.eraseDups

/-- The other side of an equality with an alias, unless it names the alias too. -/
def equated? (name : String) (aliases : List String) (condition : Phrase) : Option Phrase :=
  match condition with
  | .node (.compare .equal) [left, right] _ =>
      let other? :=
        if left.identifier? = some name then some right
        else if right.identifier? = some name then some left
        else none
      other?.filter fun other => !(named aliases other).contains name
  | _ => none

/-- The first element with the least measure. -/
def firstLeast {α : Type} (measure : α → Nat) : List α → Option α
  | [] => none
  | a :: as =>
      match firstLeast measure as with
      | some b => if measure b < measure a then some b else some a
      | none => some a

/-- What an alias stands for, and the aliases that have to be bound before. -/
structure Replacement where
  definition : AliasDefinition
  expression : Phrase
  dependsOn : List String

/-- A join alias is replaced by its path, a range alias by what it is equated
with; an equality that names few other aliases is preferred. -/
def expressionFor? (aliases : List String) (conditions : List Phrase)
    (d : AliasDefinition) : Option Phrase :=
  match d.joinPath? with
  | some path => some (Phrase.ofDotted path)
  | none => firstLeast (fun e => (named aliases e).length)
      (conditions.filterMap (equated? d.name aliases))

def replacement (aliases : List String) (conditions : List Phrase) (d : AliasDefinition) :
    Except Fault Replacement :=
  match expressionFor? aliases conditions d with
  | some e => .ok { definition := d, expression := e, dependsOn := named aliases e }
  | none => .error (.undecidable (.noReplacement d.name))

def replacements (s : Statement) : Except Fault (List Replacement) :=
  let conditions := (s.condition?.map conjuncts).getD []
  s.definitions.mapM (replacement s.aliases conditions)

/-- Whether everything that a replacement depends on is bound. -/
def Replacement.isReady (bound : List String) (r : Replacement) : Bool :=
  r.dependsOn.all bound.contains

/-- The replacements in an order in which each finds its dependencies bound, the
earliest that is ready always first, and the replacements for which there is no
such order. -/
def arrange (bound : List String) (pending : List Replacement) :
    List Replacement × List Replacement :=
  match _h : pending.findIdx? (Replacement.isReady bound) with
  | none => ([], pending)
  | some i =>
      match pending[i]? with
      | none => ([], pending)
      | some r =>
          let (rest, stuck) := arrange (r.definition.name :: bound) (pending.eraseIdx i)
          (r :: rest, stuck)
termination_by pending.length
decreasing_by
  have hi : i < pending.length := (List.findIdx?_eq_some_iff_findIdx_eq.mp _h).1
  rw [List.length_eraseIdx_of_lt hi]
  omega

/-! ## Combinations -/

/-- Keeps the values that an alias of a type can stand for, each object once. -/
def admissible (ev : Evaluator) (type? : Option String) (seen : List ObjectId) :
    List Value → List Value
  | [] => []
  | .entity id :: rest =>
      let fits := match type? with
        | some type => ev.mapping.isInstance ev.world id type
        | none => true
      if fits && !seen.contains id then
        .entity id :: admissible ev type? (id :: seen) rest
      else admissible ev type? seen rest
  | v :: rest =>
      if type?.isSome then admissible ev type? seen rest
      else v :: admissible ev type? seen rest

/-- The values of an alias; an outer join without any has null. -/
def candidates (ev : Evaluator) (d : AliasDefinition) (v : Value) : List Value :=
  match admissible ev d.type? [] v.items with
  | [] => if d.inner then [] else [.null]
  | vs => vs

/-- Extends each combination by the values of one more alias; `count` is the
number of combinations made so far. -/
def extend (ev : Evaluator) (evaluate : Environment → Phrase → Eval Value)
    (outer : Environment) (r : Replacement) (count : Nat) :
    List (Bindings Value) → Traced (List (Bindings Value))
  | [] => return []
  | variant :: rest => do
      match ← (evaluate (outer.bindAliases variant) r.expression).run with
      | none => undecidable (.undefinedReplacement r.definition.name)
      | some v =>
          let extended := (candidates ev r.definition v).map fun c =>
            variant ++ [(r.definition.name, c)]
          let total := count + extended.length
          if maxVariants < total then undecidable .tooManyVariants
          else do
            let others ← extend ev evaluate outer r total rest
            return extended ++ others

/-- All combinations of the values of the aliases. -/
def variants (ev : Evaluator) (evaluate : Environment → Phrase → Eval Value)
    (outer : Environment) (rs : List Replacement) : Traced (List (Bindings Value)) := do
  let (ordered, stuck) := arrange [] rs
  let found ← ordered.foldlM (fun vs r => extend ev evaluate outer r 0 vs) [[]]
  if stuck.isEmpty then return found else undecidable .cyclicReplacements

/-! ## Rows -/

/-- The truth of a condition. -/
def holds (ev : Evaluator) (evaluate : Environment → Phrase → Eval Value)
    (env : Environment) (condition : Phrase) : Traced (Option Bool) := do
  let v ← (evaluate env condition).run
  Traced.lift (Operation.truth ev.world v)

/-- The values of the selected paths, one after the other. -/
def project (evaluate : Environment → Phrase → Eval Value) (env : Environment) :
    List String → Traced (List Value)
  | [] => return []
  | path :: paths => do
      match ← (evaluate env (Phrase.ofDotted path)).run with
      | none => undecidable (.undefinedSelection path)
      | some v => do
          let vs ← project evaluate env paths
          return v :: vs

/-- One selected path makes a row by itself, several make a tuple. -/
def row : List Value → Value
  | [v] => v
  | vs => .tuple vs

/-- Whether a combination meets the condition, if there is one. -/
def isAccepted (ev : Evaluator) (evaluate : Environment → Phrase → Eval Value)
    (env : Environment) : Option Phrase → Traced Bool
  | none => return true
  | some condition => do
      match ← holds ev evaluate env condition with
      | some b => return b
      | none => undecidable .undefinedCondition

def rows (ev : Evaluator) (evaluate : Environment → Phrase → Eval Value)
    (outer : Environment) (s : Statement) : List (Bindings Value) → Traced (List Value)
  | [] => return []
  | variant :: rest => do
      let env := outer.bindAliases variant
      if ← isAccepted ev evaluate env s.condition? then do
        let vs ← project evaluate env s.selectedPaths
        let others ← rows ev evaluate outer s rest
        return row vs :: others
      else rows ev evaluate outer s rest

/-- Whether the condition is false whatever the aliases stand for. -/
def isRefuted (ev : Evaluator) (evaluate : Environment → Phrase → Eval Value)
    (outer : Environment) : Option Phrase → Traced Bool
  | none => return false
  | some condition => do
      let b ← holds ev evaluate outer condition
      return b == some false

/-- The rows of a subselect, whose aliases hide those around it. -/
def answer (ev : Evaluator) (evaluate : Environment → Phrase → Eval Value)
    (env : Environment) (s : Statement) : Traced (List Value) := do
  if aggregates s.phrase then undecidable .aggregation
  else
    let outer := env.unbindAliases s.aliases
    if ← isRefuted ev evaluate outer s.condition? then return []
    else do
      let rs ← Traced.lift (replacements s)
      let found ← variants ev evaluate outer rs
      rows ev evaluate outer s found

end RowGuard.Enumeration
