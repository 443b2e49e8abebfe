import RowGuard.Query.Scan
import RowGuard.Query.Phrase

/-!
# Cursors

Reading moves a cursor over the tokens of a text.  The cursor remembers the
span of the token it passed last, because a phrase ends where its last token
ends.  A reader either fails with what it would have accepted or returns its
result; it looks ahead through `peek` and passes tokens through `advance`.
-/

namespace RowGuard.Query

open Source (Span)

/-- The tokens that are left, the span of the last token passed, and the place
behind the text. -/
structure Cursor where
  rest : List Lexeme
  last : Span
  stop : Span

/-- Something else than `expected` stands at `span`. -/
structure Mismatch where
  span : Span
  expected : String
  found : String

abbrev Reader := StateT Cursor (Except Mismatch)

namespace Reader

def peek : Reader (Option Token) := do
  return (← get).rest.head?.map Lexeme.token

/-- The token behind the next one. -/
def peekSecond : Reader (Option Token) := do
  return (← get).rest.tail.head?.map Lexeme.token

def peekKeyword : Reader (Option Keyword) := do
  return (← peek).bind Token.keyword?

/-- The span of the next token, or the place behind the text. -/
def here : Reader Span := do
  let c ← get
  return (c.rest.head?.map Lexeme.span).getD c.stop

/-- Passes the next token, if there is one. -/
def advance : Reader Unit :=
  modify fun c =>
    match c.rest with
    | [] => c
    | lexeme :: rest => { c with rest, last := lexeme.span }

def fail (expected : String) : Reader α := do
  let c ← get
  match c.rest with
  | [] => throw ⟨c.stop, expected, "end of input"⟩
  | lexeme :: _ => throw ⟨lexeme.span, expected, lexeme.token.describe⟩

/-- Passes the given token if it comes next. -/
def eat (token : Token) : Reader Bool := do
  if (← peek) = some token then advance; return true else return false

def eatKeyword (keyword : Keyword) : Reader Bool := do
  if (← peekKeyword) = some keyword then advance; return true else return false

/-- Passes the given token and returns its span. -/
def require (token : Token) (expected : String) : Reader Span := do
  if ← eat token then return (← get).last else fail expected

def requireKeyword (keyword : Keyword) : Reader Span := do
  if ← eatKeyword keyword then return (← get).last else fail keyword.text

def requireWord (expected : String) : Reader String := do
  match ← peek with
  | some (.word text) => advance; return text
  | _ => fail expected

/-- Whether the next token can name a variable. -/
def aliasNext : Reader Bool := do
  match ← peek with
  | some (.word text) =>
      return match Keyword.ofWord? text with
        | some k => !k.isReserved
        | none => true
  | _ => return false

/-- The node that begins at `start` and ends with the last token passed. -/
def close (label : Label) (children : List Phrase) (start : Span) : Reader Phrase := do
  return .node label children (start.merge (← get).last)

/-- As `close`, but a single child stands for itself. -/
def collapse (label : Label) (children : List Phrase) (start : Span) : Reader Phrase :=
  match children with
  | [t] => return t
  | ts => close label ts start

/-- Repeats a step until it gives nothing, at most `n` times. -/
def repeatAtMost (step : Reader (Option α)) : Nat → Reader (List α)
  | 0 => return []
  | n + 1 => do
      match ← step with
      | none => return []
      | some a => return a :: (← repeatAtMost step n)

/-- Repeats a step until it gives nothing.  Every step that gives something
passes a token, so the tokens that are left bound the repetitions. -/
def many (step : Reader (Option α)) : Reader (List α) := do
  repeatAtMost step (← get).rest.length

/-- One item, and further ones as long as `more` passes something between. -/
def separated (more : Reader Bool) (item : Reader α) : Reader (List α) := do
  let first ← item
  let others ← many do
    if ← more then return some (← item) else return none
  return first :: others

def commaSeparated (item : Reader α) : Reader (List α) :=
  separated (eat .comma) item

end Reader

end RowGuard.Query
