import RowGuard.Query.Phrase

/-!
# Putting a path for an alias

The subject of a rule becomes the path that a query selects.  A path that starts
at the subject goes on behind that path.  A subselect that declares the alias
itself means another object by it and is left alone.
-/

namespace RowGuard.Restriction

open Query (Label Phrase)

/-- The children of a path that replaces the root of another one. -/
def graft (replacement : Phrase) : List Phrase :=
  match replacement with
  | .node .path cs _ => cs
  | t => [t]

mutual

def substitute (name : String) (replacement : Phrase) : Phrase → Phrase
  | .node label cs span =>
      let t := Phrase.node label cs span
      if label = .subselect ∧ t.declaredAliases.contains name then t
      else if label = .identifier name then replacement
      else if label = .path ∧ t.rootAlias? = some name then
        .node label (graft replacement ++ cs.drop 1) span
      else .node label (substituteAll name replacement cs) span

def substituteAll (name : String) (replacement : Phrase) : List Phrase → List Phrase
  | [] => []
  | t :: ts => substitute name replacement t :: substituteAll name replacement ts

end

end RowGuard.Restriction
