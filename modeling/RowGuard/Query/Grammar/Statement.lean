import RowGuard.Query.Grammar.Expression

/-!
# Clauses and statements

A subselect is made of the same clauses as a statement, so the clauses come
first.  `depth` then ties expressions and subselects together, one nesting
depth upon the other, and the statements are read at a depth that the number
of tokens can never exceed.
-/

namespace RowGuard.Query

open Source (Span SyntaxError)

namespace Grammar

open Reader

/-! ## Clauses -/

def moreName : Reader (Option String) := do
  if ← eat .dot then return some (← requireWord "a class name segment")
  else return none

/-- An item of a select list: an operand or the making of a result object. -/
def selectItem (operand : Reader Phrase) : Reader Phrase := do
  if (← peekKeyword) = some .new then
    let start ← requireKeyword .new
    let first ← requireWord "a constructor class name"
    let others ← many moreName
    let _ ← require .opening "'('"
    let arguments ← commaSeparated operand
    let _ ← require .closing "')'"
    close (.newObject (Text.Dotted.join (first :: others))) arguments start
  else operand

def selectClause (operand : Reader Phrase) : Reader Phrase := do
  let start ← requireKeyword .select
  let distinct ← eatKeyword .distinct
  let ts ← commaSeparated (selectItem operand)
  close (.selectClause distinct) ts start

/-- Whether a join begins here and, if so, whether it is an outer one; all
words before `JOIN` are passed. -/
def joinStart : Reader (Option Bool) := do
  match ← peekKeyword with
  | some .join => return some false
  | some .inner => advance; return some false
  | some .left =>
      advance
      let _ ← eatKeyword .outer
      return some true
  | _ => return none

def join? : Reader (Option Phrase) := do
  let start ← here
  match ← joinStart with
  | none => return none
  | some outer =>
      let _ ← requireKeyword .join
      let fetch ← eatKeyword .fetch
      let path ← pathExpression
      let named ← do
        if ← eatKeyword .as_ then pure true else aliasNext
      if named then
        let name ← variableName
        return some (← close (.join outer fetch) [path, name] start)
      else return some (← close (.join outer fetch) [path] start)

def fromItem : Reader Phrase := do
  let start ← here
  let entity ← entityName
  let name ← declaredAlias
  let joins ← many join?
  close .fromItem (entity :: name :: joins) start

def fromClause : Reader Phrase := do
  let start ← requireKeyword .from_
  let ts ← commaSeparated fromItem
  close .fromClause ts start

def whereClause (condition : Reader Phrase) : Reader (List Phrase) := do
  let start ← here
  if ← eatKeyword .where_ then
    let t ← condition
    return [← close .whereClause [t] start]
  else return []

def groupByClause (operand : Reader Phrase) : Reader (List Phrase) := do
  let start ← here
  if ← eatKeyword .group then
    let _ ← requireKeyword .by_
    let ts ← commaSeparated operand
    return [← close .groupByClause ts start]
  else return []

def havingClause (condition : Reader Phrase) : Reader (List Phrase) := do
  let start ← here
  if ← eatKeyword .having then
    let t ← condition
    return [← close .havingClause [t] start]
  else return []

def direction : Reader Bool := do
  if ← eatKeyword .desc then return true
  else
    let _ ← eatKeyword .asc
    return false

def orderByItem (operand : Reader Phrase) : Reader Phrase := do
  let start ← here
  let t ← operand
  let descending ← direction
  close (.orderByItem descending) [t] start

def orderByClause (operand : Reader Phrase) : Reader (List Phrase) := do
  let start ← here
  if ← eatKeyword .order then
    let _ ← requireKeyword .by_
    let ts ← commaSeparated (orderByItem operand)
    return [← close .orderByClause ts start]
  else return []

/-- The clauses that a statement and a subselect have in common. -/
def selectBody (operand condition : Reader Phrase) : Reader (List Phrase) := do
  let select ← selectClause operand
  let source ← fromClause
  let restriction ← whereClause condition
  let grouping ← groupByClause operand
  let having ← havingClause condition
  return select :: source :: (restriction ++ grouping ++ having)

def subselect (operand condition : Reader Phrase) (start : Span) : Reader Phrase := do
  let ts ← selectBody operand condition
  let _ ← require .closing "')'"
  close .subselect ts start

/-! ## Nesting -/

/-- The readers of phrases whose brackets nest less than `n` deep. -/
def depth : Nat → Inner
  | 0 =>
      { condition := fail "an expression"
        operand := fail "an expression"
        subselect := fun _ => fail "an expression" }
  | n + 1 =>
      let inner := depth n
      { condition := condition inner
        operand := sum inner
        subselect := subselect (sum inner) (condition inner) }

/-! ## Statements -/

def selectStatement (inner : Inner) : Reader Phrase := do
  let start ← here
  let ts ← selectBody inner.operand inner.condition
  let order ← orderByClause inner.operand
  close .selectStatement (ts ++ order) start

def assignment (inner : Inner) : Reader Phrase := do
  let start ← here
  let target ← pathExpression
  let _ ← require .equal "'='"
  let value ← inner.operand
  close .assignment [target, value] start

def updateStatement (inner : Inner) : Reader Phrase := do
  let start ← requireKeyword .update
  let entity ← entityName
  let name ← declaredAlias
  let update ← close .updateClause [entity, name] start
  let setStart ← requireKeyword .set
  let assignments ← commaSeparated (assignment inner)
  let set ← close .setClause assignments setStart
  let restriction ← whereClause inner.condition
  close .updateStatement (update :: set :: restriction) start

def deleteStatement (inner : Inner) : Reader Phrase := do
  let start ← requireKeyword .delete
  let _ ← requireKeyword .from_
  let entity ← entityName
  let name ← declaredAlias
  let delete ← close .deleteClause [entity, name] start
  let restriction ← whereClause inner.condition
  close .deleteStatement (delete :: restriction) start

def accessKind? : Reader (Option AccessKind) := do
  let kind := match ← peekKeyword with
    | some .create => some AccessKind.create
    | some .read => some .read
    | some .update => some .update
    | some .delete => some .delete
    | _ => none
  if kind.isSome then advance
  return kind

/-- The list without later repetitions. -/
def distinct [BEq α] (as : List α) : List α :=
  (as.foldl (fun kept a => if kept.contains a then kept else a :: kept) []).reverse

def accessRule (inner : Inner) : Reader Phrase := do
  let start ← requireKeyword .grant
  let kinds ← many accessKind?
  let _ ← requireKeyword .access
  let _ ← requireKeyword .to
  let entity ← entityName
  let name ← declaredAlias
  let restriction ← whereClause inner.condition
  close (.accessRule (distinct kinds)) (entity :: name :: restriction) start

def endOfText : Reader Unit := do
  if (← get).rest.isEmpty then return () else fail "end of input"

def statement (inner : Inner) : Reader Phrase := do
  let t ← do
    match ← peekKeyword with
    | some .select => selectStatement inner
    | some .update => updateStatement inner
    | some .delete => deleteStatement inner
    | some .grant => accessRule inner
    | _ => fail "SELECT, UPDATE, DELETE or GRANT"
  endOfText
  return t

def rule (inner : Inner) : Reader Phrase := do
  if (← peekKeyword) = some .grant then
    let t ← accessRule inner
    endOfText
    return t
  else fail "GRANT"

/-- Runs a reader on a whole source text. -/
def read (reader : Inner → Reader Phrase) (source : String) : Except SyntaxError Phrase := do
  let tokens ← scan source
  match (reader (depth (tokens.length + 1))).run ⟨tokens, Span.none, Span.endOf source⟩ with
  | .ok (t, _) => return t
  | .error e => throw (SyntaxError.atSpan source e.span e.expected e.found)

end Grammar

/-- The statement or access rule that a text spells. -/
def Phrase.ofText (source : String) : Except SyntaxError Phrase :=
  Grammar.read Grammar.statement source

/-- The access rule that a text spells. -/
def Phrase.ruleOfText (source : String) : Except SyntaxError Phrase :=
  Grammar.read Grammar.rule source

end RowGuard.Query
