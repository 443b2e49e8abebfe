import RowGuard.Query.Cursor

/-!
# Expressions and conditions

The readers of one nesting depth are built from those of the depth below:
whatever stands between brackets is read by an `Inner`, and every bracket
passes a token.  A text of `n` tokens is therefore read completely at depth
`n + 1`, and no reader here calls itself except along the tokens.
-/

namespace RowGuard.Query

open Source (Span)

namespace Grammar

open Reader

/-- The readers for what stands between brackets. -/
structure Inner where
  condition : Reader Phrase
  operand : Reader Phrase
  /-- Reads a subselect whose opening bracket has been passed. -/
  subselect : Span → Reader Phrase

/-! ## Names and paths -/

def entityName : Reader Phrase := do
  let span ← here
  let name ← requireWord "an entity name"
  return .leaf (.entityName name) span

def variableName : Reader Phrase := do
  if ← aliasNext then
    let span ← here
    let name ← requireWord "an identification variable"
    return .leaf (.identifier name) span
  else fail "an identification variable"

/-- A variable after an optional `AS`. -/
def declaredAlias : Reader Phrase := do
  let _ ← eatKeyword .as_
  variableName

def nextSegment : Reader (Option Phrase) := do
  if ← eat .dot then
    let span ← here
    let name ← requireWord "a property name"
    return some (.leaf (.segment name) span)
  else return none

/-- A variable and the segments behind it. -/
def pathExpression : Reader Phrase := do
  let start ← here
  let root ← variableName
  let segments ← many nextSegment
  collapse .path (root :: segments) start

/-! ## Functions -/

/-- A function with its least and its greatest number of arguments. -/
structure Signature where
  label : Label
  least : Nat
  most : Option Nat

/-- The function that a word in upper case names; trimming has a syntax of its
own. -/
def signature? : String → Option Signature
  | "CONCAT" => some ⟨.concat, 2, none⟩
  | "SUBSTRING" => some ⟨.substring, 2, some 3⟩
  | "LOCATE" => some ⟨.locate, 2, some 3⟩
  | "MOD" => some ⟨.mod, 2, some 2⟩
  | "UPPER" => some ⟨.upper, 1, some 1⟩
  | "LOWER" => some ⟨.lower, 1, some 1⟩
  | "LENGTH" => some ⟨.length, 1, some 1⟩
  | "ABS" => some ⟨.abs, 1, some 1⟩
  | "SQRT" => some ⟨.sqrt, 1, some 1⟩
  | "SIZE" => some ⟨.size, 1, some 1⟩
  | _ => none

/-- Whether a function takes this many arguments. -/
def Signature.admits (s : Signature) (count : Nat) : Bool :=
  s.least ≤ count && match s.most with
    | some n => count ≤ n
    | none => true

/-- What a report says that the function takes. -/
def Signature.demand (s : Signature) (name : String) : String :=
  if s.most = some s.least then s!"{s.least} argument(s) to {name}"
  else s!"at least {s.least} arguments to {name}"

def aggregateCall (inner : Inner) (function : Aggregate) (start : Span) :
    Reader Phrase := do
  advance
  let _ ← require .opening "'('"
  let distinct ← eatKeyword .distinct
  let argument ← inner.operand
  let _ ← require .closing "')'"
  close (.aggregate function distinct) [argument] start

/-- The number of arguments is checked before the closing bracket is. -/
def functionCall (inner : Inner) (name : String) (s : Signature) (start : Span) :
    Reader Phrase := do
  advance
  let _ ← require .opening "'('"
  let arguments ← commaSeparated inner.operand
  if s.admits arguments.length then
    let _ ← require .closing "')'"
    close s.label arguments start
  else
    throw ⟨start.merge (← get).last, s.demand name, toString arguments.length⟩

def trimSide : Reader (Option TrimSide) := do
  let side := match ← peekKeyword with
    | some .leading => some TrimSide.leading
    | some .trailing => some .trailing
    | some .both => some .both
    | _ => none
  if side.isSome then advance
  return side

/-- The operands of trimming: an optional side and an optional character, then
`FROM` where either was given, then the text. -/
def trimCall (inner : Inner) (start : Span) : Reader Phrase := do
  advance
  let _ ← require .opening "'('"
  let side ← trimSide
  let operands ← do
    if ← eatKeyword .from_ then pure [← inner.operand]
    else
      let first ← inner.operand
      if ← eatKeyword .from_ then pure [first, ← inner.operand]
      else if side.isSome then fail "FROM"
      else pure [first]
  let _ ← require .closing "')'"
  close (.trim side) operands start

/-- The call of the function that a word names, if it names any.  The word has
been seen and not passed. -/
def call? (inner : Inner) (word : String) : Reader (Option Phrase) := do
  let start ← here
  let name := word.toUpper
  match Aggregate.ofWord? word with
  | some function => return some (← aggregateCall inner function start)
  | none =>
      match signature? name with
      | some s => return some (← functionCall inner name s start)
      | none =>
          if name = "TRIM" then return some (← trimCall inner start)
          else return none

/-! ## Operands -/

/-- The label of a keyword that is a phrase by itself. -/
def keywordLabel? : Keyword → Option Label
  | .true_ => some (.booleanLiteral true)
  | .false_ => some (.booleanLiteral false)
  | .null => some .null
  | .currentDate => some (.clock .date)
  | .currentTime => some (.clock .time)
  | .currentTimestamp => some (.clock .timestamp)
  | .currentPrincipal => some (.context .principal)
  | .currentRoles => some (.context .roles)
  | .currentTenant => some (.context .tenant)
  | _ => none

/-- The label of a literal or a parameter. -/
def literalLabel? : Token → Option Label
  | .string text => some (.stringLiteral text)
  | .integer text => some (.integerLiteral text)
  | .decimal text => some (.decimalLiteral text)
  | .named name => some (.namedParameter name)
  | .positional index => some (.positionalParameter index)
  | _ => none

/-- A phrase of one token. -/
def single (label : Label) : Reader Phrase := do
  let span ← here
  advance
  return .leaf label span

/-- What stands between brackets, the opening one not yet passed. -/
def bracketed (inner : Inner) : Reader Phrase := do
  let start ← here
  advance
  if (← peekKeyword) = some .select then inner.subselect start
  else
    let t ← inner.condition
    let _ ← require .closing "')'"
    close .brackets [t] start

/-- A word that calls no function: a keyword phrase or a path. -/
def wordPhrase (word : String) : Reader Phrase :=
  match Keyword.ofWord? word with
  | none => pathExpression
  | some k =>
      match keywordLabel? k with
      | some label => single label
      | none => if k.isReserved then fail "an expression" else pathExpression

def primary (inner : Inner) : Reader Phrase := do
  match ← peek with
  | some .opening => bracketed inner
  | some (.word word) =>
      if (← peekSecond) = some .opening then
        match ← call? inner word with
        | some t => return t
        | none => wordPhrase word
      else wordPhrase word
  | some token =>
      match literalLabel? token with
      | some label => single label
      | none => fail "an expression"
  | none => fail "an expression"

/-- Signs in front of an operand, at most `n` of them; a plus leaves no trace. -/
def signedAtMost (inner : Inner) : Nat → Reader Phrase
  | 0 => primary inner
  | n + 1 => do
      let start ← here
      if ← eat .minus then
        let t ← signedAtMost inner n
        close .negative [t] start
      else if ← eat .plus then signedAtMost inner n
      else primary inner

def signed (inner : Inner) : Reader Phrase := do
  signedAtMost inner (← get).rest.length

def productOperator? : Token → Option ArithmeticOperator
  | .star => some .multiply
  | .slash => some .divide
  | _ => none

def sumOperator? : Token → Option ArithmeticOperator
  | .plus => some .add
  | .minus => some .subtract
  | _ => none

/-- Further operands of a chain of operators that group to the left. -/
def chainAtMost (operator? : Token → Option ArithmeticOperator)
    (operand : Reader Phrase) (start : Span) : Nat → Phrase → Reader Phrase
  | 0, left => return left
  | n + 1, left => do
      match (← peek).bind operator? with
      | none => return left
      | some operator =>
          advance
          let right ← operand
          let t ← close (.arithmetic operator) [left, right] start
          chainAtMost operator? operand start n t

def chain (operator? : Token → Option ArithmeticOperator)
    (operand : Reader Phrase) : Reader Phrase := do
  let start ← here
  let left ← operand
  chainAtMost operator? operand start (← get).rest.length left

def product (inner : Inner) : Reader Phrase := chain productOperator? (signed inner)

def sum (inner : Inner) : Reader Phrase := chain sumOperator? (product inner)

/-! ## Conditions -/

def comparison? : Token → Option Comparison
  | .equal => some .equal
  | .notEqual => some .notEqual
  | .less => some .less
  | .lessOrEqual => some .lessOrEqual
  | .greater => some .greater
  | .greaterOrEqual => some .greaterOrEqual
  | _ => none

/-- The items of a membership test: a parameter, a subselect or a list. -/
def items (inner : Inner) : Reader (List Phrase) := do
  match ← peek with
  | some (.named _) | some (.positional _) => return [← primary inner]
  | _ =>
      let start ← require .opening "'('"
      if (← peekKeyword) = some .select then return [← inner.subselect start]
      else
        let ts ← commaSeparated (sum inner)
        let _ ← require .closing "')'"
        return ts

/-- The keywords that may follow a `NOT` behind an operand. -/
def takesNegation : Keyword → Bool
  | .between | .in_ | .like | .member => true
  | _ => false

/-- Passes a `NOT` that negates the predicate behind it. -/
def predicateNegation : Reader Bool := do
  if (← peekKeyword) = some .not then
    if (((← peekSecond).bind Token.keyword?).map takesNegation).getD false then
      advance
      return true
    else return false
  else return false

def between (inner : Inner) (left : Phrase) (start : Span) : Reader Phrase := do
  advance
  let lower ← sum inner
  let _ ← requireKeyword .and
  let upper ← sum inner
  close .between [left, lower, upper] start

def membership (inner : Inner) (left : Phrase) (start : Span) : Reader Phrase := do
  advance
  let ts ← items inner
  close .isIn (left :: ts) start

def likeness (inner : Inner) (left : Phrase) (start : Span) : Reader Phrase := do
  advance
  let pattern ← sum inner
  if ← eatKeyword .escape then
    let escape ← primary inner
    close .like [left, pattern, escape] start
  else close .like [left, pattern] start

def collectionMembership (inner : Inner) (left : Phrase) (start : Span) :
    Reader Phrase := do
  advance
  let _ ← eatKeyword .of_
  let collection ← primary inner
  close .memberOf [left, collection] start

/-- `IS [NOT] NULL` and `IS [NOT] EMPTY`. -/
def stateTest (left : Phrase) (start : Span) : Reader Phrase := do
  advance
  let negated ← eatKeyword .not
  let label ← do
    if ← eatKeyword .null then pure Label.isNull
    else if ← eatKeyword .empty then pure Label.isEmpty
    else fail "NULL or EMPTY"
  let test ← close label [left] start
  if negated then close .not [test] start else return test

/-- The predicate that follows an operand, if one does. -/
def predicate (inner : Inner) (left : Phrase) (start : Span) : Reader Phrase := do
  let negated ← predicateNegation
  let finish (test : Phrase) : Reader Phrase :=
    if negated then close .not [test] start else return test
  match ← peekKeyword with
  | some .between => finish (← between inner left start)
  | some .in_ => finish (← membership inner left start)
  | some .like => finish (← likeness inner left start)
  | some .member => finish (← collectionMembership inner left start)
  | some .is => if negated then return left else stateTest left start
  | _ => return left

def existence (inner : Inner) (start : Span) : Reader Phrase := do
  let opening ← require .opening "'('"
  if (← peekKeyword) = some .select then
    let t ← inner.subselect opening
    close .exist [t] start
  else fail "SELECT"

/-- A condition without connectives, or an operand alone. -/
def simpleCondition (inner : Inner) : Reader Phrase := do
  let start ← here
  if ← eatKeyword .exists_ then existence inner start
  else
    let left ← sum inner
    match (← peek).bind comparison? with
    | some operator =>
        advance
        let right ← sum inner
        close (.compare operator) [left, right] start
    | none => predicate inner left start

/-- Negations in front of a condition, at most `n` of them. -/
def factorAtMost (inner : Inner) : Nat → Reader Phrase
  | 0 => simpleCondition inner
  | n + 1 => do
      let start ← here
      if ← eatKeyword .not then
        let t ← factorAtMost inner n
        close .not [t] start
      else simpleCondition inner

def factor (inner : Inner) : Reader Phrase := do
  factorAtMost inner (← get).rest.length

def term (inner : Inner) : Reader Phrase := do
  let start ← here
  let ts ← separated (eatKeyword .and) (factor inner)
  collapse .and ts start

def condition (inner : Inner) : Reader Phrase := do
  let start ← here
  let ts ← separated (eatKeyword .or) (term inner)
  collapse .or ts start

end Grammar

end RowGuard.Query
