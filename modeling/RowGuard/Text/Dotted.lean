/-!
# Dotted names

A path is written as its parts with a point between each two of them.  Cutting
a text at its points is total: a text without any is its own single part, and
two points in a row enclose an empty part.
-/

namespace RowGuard.Text.Dotted

/-- The characters before the first point, and the parts behind it. -/
def cut : List Char → List Char × List (List Char)
  | [] => ([], [])
  | c :: rest =>
      let (first, more) := cut rest
      if c = '.' then ([], first :: more) else (c :: first, more)

/-- The part before the first point. -/
def first (s : String) : String := String.ofList (cut s.toList).1

/-- The parts behind the first point. -/
def others (s : String) : List String := (cut s.toList).2.map String.ofList

def parts (s : String) : List String := first s :: others s

def join (parts : List String) : String := ".".intercalate parts

end RowGuard.Text.Dotted
