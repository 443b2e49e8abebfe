import RowGuard.Query.Label
import RowGuard.Source.Span
import RowGuard.Text.Dotted
import RowGuard.Text.Quoted

/-!
# Phrases

Every phrase, from a whole statement down to a single name, is a node with a
label, its children in order, and the span it was read from.  Spans are for
reports only: two phrases are the same when they agree once all spans are
forgotten.
-/

namespace RowGuard.Query

open Source (Span)

inductive Phrase where
  | node (label : Label) (children : List Phrase) (span : Span)

namespace Phrase

def label : Phrase → Label
  | node label _ _ => label

def children : Phrase → List Phrase
  | node _ children _ => children

def span : Phrase → Span
  | node _ _ span => span

instance : Inhabited Phrase := ⟨node .null [] Span.none⟩

/-! ## Sameness -/

mutual

/-- Whether two phrases agree in labels and children. -/
def same : Phrase → Phrase → Bool
  | node l cs _, node m ds _ => l == m && sameAll cs ds

def sameAll : List Phrase → List Phrase → Bool
  | [], [] => true
  | c :: cs, d :: ds => same c d && sameAll cs ds
  | _, _ => false

end

mutual

/-- The phrase with all spans forgotten. -/
def bare : Phrase → Phrase
  | node l cs _ => node l (bareAll cs) Span.none

def bareAll : List Phrase → List Phrase
  | [] => []
  | c :: cs => bare c :: bareAll cs

end

mutual

/-- Sameness is equality of what is left without spans. -/
theorem same_iff : ∀ t u : Phrase, same t u = true ↔ t.bare = u.bare
  | node l cs _, node m ds _ => by
      simp [same, bare, sameAll_iff cs ds]

theorem sameAll_iff : ∀ ts us : List Phrase,
    sameAll ts us = true ↔ bareAll ts = bareAll us
  | [], [] => by simp [sameAll, bareAll]
  | [], _ :: _ => by simp [sameAll, bareAll]
  | _ :: _, [] => by simp [sameAll, bareAll]
  | c :: cs, d :: ds => by
      simp [sameAll, bareAll, same_iff c d, sameAll_iff cs ds]

end

/-! ## Building -/

/-- A node that was built and not read. -/
def build (label : Label) (children : List Phrase) : Phrase :=
  node label children Span.none

def leaf (label : Label) (span : Span) : Phrase := node label [] span

def identifier (name : String) : Phrase := build (.identifier name) []

def namedParameter (name : String) : Phrase := build (.namedParameter name) []

def integer (value : Nat) : Phrase := build (.integerLiteral (toString value)) []

/-- The path from a root through some segments, the root alone without any. -/
def path (root : Phrase) (segments : List String) : Phrase :=
  match segments with
  | [] => root
  | _ => build .path (root :: segments.map fun s => build (.segment s) [])

/-- The path that a dotted text names, its first part being the root. -/
def ofDotted (text : String) : Phrase :=
  path (identifier (Text.Dotted.first text)) (Text.Dotted.others text)

def bracketed (t : Phrase) : Phrase :=
  if t.label = .brackets then t else build .brackets [t]

/-- The operands under a label; a single operand stays as it is. -/
def joined (label : Label) (operands : List Phrase) : Phrase :=
  match operands with
  | [t] => t
  | _ => build label operands

def conjunction (operands : List Phrase) : Phrase := joined .and operands

def disjunction (operands : List Phrase) : Phrase := joined .or operands

/-- The condition `1 = 0`, which no object meets. -/
def alwaysFalse : Phrase := build (.compare .equal) [integer 1, integer 0]

/-! ## Looking -/

def child? (t : Phrase) (i : Nat) : Option Phrase := t.children[i]?

/-- The first child whose label passes a test. -/
def findChild? (p : Label → Bool) (t : Phrase) : Option Phrase :=
  t.children.find? fun c => p c.label

def text? (t : Phrase) : Option String := t.label.text?

def identifier? (t : Phrase) : Option String :=
  match t.label with
  | .identifier name => some name
  | _ => none

/-- The texts of all phrases, if each carries one. -/
def texts? : List Phrase → Option (List String)
  | [] => some []
  | t :: ts => do
      let s ← t.text?
      let rest ← texts? ts
      return s :: rest

/-- The dotted form of a name or of a path that starts at a name. -/
def dotted? : Phrase → Option String
  | node (.identifier name) _ _ => some name
  | node .path (root :: segments) _ => do
      let first ← dotted? root
      let rest ← texts? segments
      return Text.Dotted.join (first :: rest)
  | _ => none

/-- The alias that a name or a path starts at. -/
def rootAlias? : Phrase → Option String
  | node (.identifier name) _ _ => some name
  | node .path (root :: _) _ => rootAlias? root
  | _ => none

/-- The segments behind the root of a path. -/
def pathSegments (t : Phrase) : List String :=
  match t with
  | node .path (_ :: segments) _ => segments.filterMap text?
  | _ => []

/-- The alias that a from item or a join declares. -/
def declaredAlias? (t : Phrase) : Option String := (t.child? 1).bind identifier?

/-- The aliases that the from clause of a statement declares, the ranges before
the joins. -/
def declaredAliases (t : Phrase) : List String :=
  match t.findChild? (· = .fromClause) with
  | none => []
  | some clause =>
      clause.children.filterMap declaredAlias?
        ++ clause.children.flatMap fun item =>
          (item.children.drop 2).filterMap declaredAlias?

/-- The text of a string literal without its quotes. -/
def stringValue? (t : Phrase) : Option String :=
  match t.label with
  | .stringLiteral text => some (Text.Quoted.decode text)
  | _ => none

/-! ## Walking -/

mutual

/-- The nodes of a phrase from the root down and from left to right; the children
of a node are left out unless `enter` admits the node. -/
def visit (enter : Phrase → Bool) : Phrase → List Phrase
  | node l cs s =>
      node l cs s :: if enter (node l cs s) then visitAll enter cs else []

def visitAll (enter : Phrase → Bool) : List Phrase → List Phrase
  | [] => []
  | t :: ts => visit enter t ++ visitAll enter ts

end

/-- All nodes of a phrase. -/
def nodes (t : Phrase) : List Phrase := t.visit fun _ => true

def collect (p : Phrase → Bool) (t : Phrase) : List Phrase := t.nodes.filter p

def contains (p : Phrase → Bool) (t : Phrase) : Bool := t.nodes.any p

mutual

/-- Forgets the spans of all nodes that `visit` reaches. -/
def forgetSpans (enter : Phrase → Bool) : Phrase → Phrase
  | node l cs s =>
      node l (if enter (node l cs s) then forgetSpansAll enter cs else cs) Span.none

def forgetSpansAll (enter : Phrase → Bool) : List Phrase → List Phrase
  | [] => []
  | t :: ts => forgetSpans enter t :: forgetSpansAll enter ts

end

/-- The names of all named parameters, in the order of their places. -/
def namedParameters (t : Phrase) : List String :=
  t.nodes.filterMap fun n =>
    match n.label with
    | .namedParameter name => some name
    | _ => none

/-- The indexes of all positional parameters, in the order of their places. -/
def positionalParameters (t : Phrase) : List Nat :=
  t.nodes.filterMap fun n =>
    match n.label with
    | .positionalParameter index => some index
    | _ => none

end Phrase

end RowGuard.Query
