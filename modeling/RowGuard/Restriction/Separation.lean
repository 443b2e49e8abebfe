import RowGuard.Query.Phrase
import RowGuard.Text.Fresh

/-!
# Keeping aliases apart

A rule condition that is put into a query must not declare an alias that the
query declares already.  The subselects of the condition are gone through from
the outside in; each alias that is taken gets a new name for all of its subselect,
and every alias that stays is taken from then on.
-/

namespace RowGuard.Restriction

open Query (Label Phrase)

/-- The label with a name replaced. -/
def renameLabel (rename : String → String) : Label → Label
  | .identifier name => .identifier (rename name)
  | l => l

/-- The renaming that goes on to map one name to another. -/
def thenRename (rename : String → String) (old new : String) : String → String :=
  fun name => if rename name = old then new else rename name

/-- A renaming and the names that are taken. -/
abbrev Renaming := (String → String) × List String

/-- Takes an alias that a subselect declares, under a new name if need be. -/
def claim (r : Renaming) (name : String) : Renaming :=
  if r.2.contains name then
    let fresh := Text.Fresh.indexed name r.2
    (thenRename r.1 name fresh, fresh :: r.2)
  else (r.1, name :: r.2)

mutual

/-- The phrase with its aliases kept apart from the taken ones, and the names that
are taken afterwards. -/
def separate (rename : String → String) (taken : List String) : Phrase → Phrase × List String
  | .node label cs span =>
      let declared := (Phrase.node label cs span).declaredAliases.map rename
      let (inner, reserved) :=
        if label = .subselect then declared.foldl claim (rename, taken) else (rename, taken)
      let (children, final) := separateAll inner reserved cs
      (.node (renameLabel rename label) children span, final)

def separateAll (rename : String → String) (taken : List String) :
    List Phrase → List Phrase × List String
  | [] => ([], taken)
  | t :: ts =>
      let (first, between) := separate rename taken t
      let (others, final) := separateAll rename between ts
      (first :: others, final)

end

end RowGuard.Restriction
