import RowGuard.Query.Label
import RowGuard.Text.Escaped

/-!
# Labels in reports

A report names the kind of a phrase together with what its label carries: flags
and operators by their field, texts between double quotes.
-/

namespace RowGuard.Query.Label

/-- A kind with one named field. -/
def withField (kind field value : String) : String :=
  kind ++ " \x7b " ++ field ++ ": " ++ value ++ " \x7d"

def withText (kind text : String) : String :=
  kind ++ "(" ++ Text.Escaped.encode text ++ ")"

def kindList (kinds : List AccessKind) : String :=
  "[" ++ ", ".intercalate (kinds.map AccessKind.name) ++ "]"

def sideText : Option TrimSide → String
  | none => "None"
  | some side => s!"Some({side.name})"

/-- The kind of a phrase and what its label carries. -/
def describe (l : Label) : String :=
  match l with
  | .accessRule kinds => withField l.name "kinds" (kindList kinds)
  | .selectClause distinct => withField l.name "distinct" (toString distinct)
  | .join _ fetch => withField l.name "fetch" (toString fetch)
  | .orderByItem descending => withField l.name "descending" (toString descending)
  | .aggregate function distinct =>
      withField l.name "function" s!"{function.name}, distinct: {distinct}"
  | .trim side => withField l.name "spec" (sideText side)
  | .positionalParameter index => s!"{l.name}({index})"
  | .booleanLiteral value => s!"{l.name}({value})"
  | .newObject text | .entityName text | .identifier text | .segment text
  | .namedParameter text | .stringLiteral text | .integerLiteral text
  | .decimalLiteral text => withText l.name text
  | _ => l.name

end RowGuard.Query.Label
