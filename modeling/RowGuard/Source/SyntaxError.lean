import RowGuard.Source.Excerpt

/-!
# Reading errors

Whatever goes wrong while a text is read is told in one shape: what would have
been acceptable at a place and what stands there instead.
-/

namespace RowGuard.Source

/-- Something else than `expected` was found at a place of a source text. -/
structure SyntaxError where
  span : Span
  position : Position
  expected : String
  found : String
  hint : Option String := none
deriving DecidableEq

namespace SyntaxError

/-- The error at the start of `span`. -/
def atSpan (source : String) (span : Span) (expected found : String) :
    SyntaxError :=
  { span, position := Position.ofOffset source span.start, expected, found }

def withHint (e : SyntaxError) (hint : String) : SyntaxError :=
  { e with hint := some hint }

def summary (e : SyntaxError) : String :=
  s!"expected {e.expected}, found {e.found}"

/-- The summary with the place it is about. -/
def message (e : SyntaxError) : String :=
  s!"{e.summary} at {e.position.text}"

/-- The summary, the place, the excerpt and the hint, one below the other. -/
def report (source : String) (e : SyntaxError) : String :=
  s!"error: {e.summary}\n  --> line {e.position.text}\n"
    ++ excerpt source e.span
    ++ match e.hint with
      | none => ""
      | some hint => s!"   = hint: {hint}\n"

end SyntaxError

end RowGuard.Source
