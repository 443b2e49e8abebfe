/-!
# Places in a source text

A span is a half-open range of byte offsets.  Reports name a place by line and
column instead, both counted from one; a column counts characters, so the two
readings of an offset differ as soon as the text leaves ASCII.
-/

namespace RowGuard.Source

/-- A range of byte offsets in a source text, its end excluded. -/
structure Span where
  start : Nat
  stop : Nat
deriving DecidableEq, Inhabited

namespace Span

/-- The span of a phrase that was built and not read. -/
def none : Span := ⟨0, 0⟩

/-- The least span that covers both. -/
def merge (s t : Span) : Span :=
  ⟨min s.start t.start, max s.stop t.stop⟩

def length (s : Span) : Nat := s.stop - s.start

def isEmpty (s : Span) : Bool := s.start == s.stop

/-- The empty span behind the last character. -/
def endOf (source : String) : Span :=
  ⟨source.utf8ByteSize, source.utf8ByteSize⟩

/-- The merge of all spans of a list, if there is any. -/
def mergeAll : List Span → Option Span
  | [] => Option.none
  | s :: rest => some (rest.foldl merge s)

@[simp]
theorem merge_start (s t : Span) : (s.merge t).start = min s.start t.start := rfl

@[simp]
theorem merge_stop (s t : Span) : (s.merge t).stop = max s.stop t.stop := rfl

theorem merge_comm (s t : Span) : s.merge t = t.merge s := by
  simp [merge, Nat.min_comm, Nat.max_comm]

theorem merge_assoc (s t u : Span) :
    (s.merge t).merge u = s.merge (t.merge u) := by
  simp [merge, Nat.min_assoc, Nat.max_assoc]

end Span

/-- A line and a column, counted from one. -/
structure Position where
  line : Nat
  column : Nat
deriving DecidableEq, Inhabited

namespace Position

/-- The place behind a character that stands at `p`. -/
def after (p : Position) (c : Char) : Position :=
  if c = '\n' then ⟨p.line + 1, 1⟩ else ⟨p.line, p.column + 1⟩

/-- Walks over the characters that begin before `offset`; `i` is the offset of
the first character of the rest. -/
def advance (offset : Nat) : List Char → Nat → Position → Position
  | [], _, p => p
  | c :: rest, i, p =>
      if offset ≤ i then p else advance offset rest (i + c.utf8Size) (p.after c)

/-- The place of a byte offset.  An offset behind the text names its end, and
one inside a character names the place behind that character. -/
def ofOffset (source : String) (offset : Nat) : Position :=
  advance offset source.toList 0 ⟨1, 1⟩

def text (p : Position) : String := s!"{p.line}:{p.column}"

end Position

end RowGuard.Source
