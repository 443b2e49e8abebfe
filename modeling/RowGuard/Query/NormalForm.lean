import RowGuard.Query.Phrase

/-!
# Normal form

Two shapes of a phrase say nothing of their own: a conjunction directly inside a
conjunction, likewise a disjunction, and brackets around a phrase that no
context can tear apart.  Normalising removes both, from the leaves up.
-/

namespace RowGuard.Query

namespace NormalForm

/-- The operands that a child contributes to a parent with this label. -/
def splice (parent : Label) (child : Phrase) : List Phrase :=
  if child.label = parent then child.children else [child]

/-- The normal form of a node whose children are normal. -/
def close (label : Label) (children : List Phrase) (span : Source.Span) : Phrase :=
  match label with
  | .and | .or => .node label (children.flatMap (splice label)) span
  | .brackets =>
      match children with
      | [t] => if t.label.isAtomic then t else .node .brackets [t] span
      | ts => .node .brackets ts span
  | _ => .node label children span

end NormalForm

namespace Phrase

mutual

def normalize : Phrase → Phrase
  | node label cs span => NormalForm.close label (normalizeAll cs) span

def normalizeAll : List Phrase → List Phrase
  | [] => []
  | t :: ts => normalize t :: normalizeAll ts

end

end Phrase

end RowGuard.Query
