import RowGuard.Source.Span

/-!
# Excerpts

A report on a source text shows the line it is about, with a caret under the
first character of the span and tildes under the others.  The marks never run
past the line, whatever the span covers.
-/

namespace RowGuard.Source

/-- Drops one carriage return from the end of a line that is kept in reverse. -/
def withoutReturn : List Char → List Char
  | '\r' :: line => line
  | line => line

/-- The lines of a text; `line` holds the current one in reverse.  A line ends
at a line feed, which takes a carriage return before it along, and a text that
ends with a line feed has no further line. -/
def linesFrom (line : List Char) : List Char → List (List Char)
  | [] => if line.isEmpty then [] else [line.reverse]
  | c :: rest =>
      if c = '\n' then (withoutReturn line).reverse :: linesFrom [] rest
      else linesFrom (c :: line) rest

def lines (source : String) : List String :=
  (linesFrom [] source.toList).map String.ofList

/-- Pads a line number on the left to three places. -/
def gutter (line : Nat) : String :=
  let digits := toString line
  String.ofList (List.replicate (3 - digits.length) ' ') ++ digits

/-- The caret at `column` and the tildes behind it, at most to the end of a
line of `width` characters. -/
def marks (column width length : Nat) : String :=
  String.ofList (List.replicate column ' ' ++ '^' ::
    List.replicate (min length (width - column + 1) - 1) '~')

/-- The excerpt for a span, empty where the span begins behind the last line. -/
def excerpt (source : String) (span : Span) : String :=
  let place := Position.ofOffset source span.start
  match (lines source)[place.line - 1]? with
  | none => ""
  | some line =>
      s!"   |\n{gutter place.line}| {line}\n   |"
        ++ marks place.column line.length span.length ++ "\n"

end RowGuard.Source
