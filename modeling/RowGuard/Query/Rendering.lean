import RowGuard.Query.Phrase

/-!
# Canonical text

A phrase is written from its leaves up.  What a node contributes depends on its
label and on the written forms of its children only, so rendering is a fold:
`compose` is its one step.  Keywords come out in upper case and literals as
they are.  An operand that binds looser than its place allows is put between
brackets, which keeps the shape of phrases that were built and not read.
-/

namespace RowGuard.Query

/-- How tightly a phrase holds together, from disjunction up to atoms. -/
def Label.precedence : Label → Nat
  | .or => 1
  | .and => 2
  | .not => 3
  | .compare _ | .between | .isIn | .like | .isNull | .isEmpty | .memberOf
  | .exist => 4
  | .arithmetic .add | .arithmetic .subtract => 5
  | .arithmetic .multiply | .arithmetic .divide => 6
  | .negative => 7
  | _ => 8

namespace Rendering

/-- A written phrase.  A predicate has a second form for its negation. -/
structure Piece where
  label : Label
  text : String
  negated : Option String

def Piece.precedence (p : Piece) : Nat := p.label.precedence

/-- The text of an operand where only phrases of some precedence may stand. -/
def operand (least : Nat) (p : Piece) : String :=
  if p.precedence < least then s!"({p.text})" else p.text

def sequence (separator : String) (ps : List Piece) : String :=
  separator.intercalate (ps.map Piece.text)

def call (name : String) (arguments : List Piece) : String :=
  s!"{name}(" ++ sequence ", " arguments ++ ")"

/-- Two operands; the right one must bind tighter than the phrase itself. -/
def binary (precedence : Nat) (sign : String) : List Piece → String
  | [left, right] =>
      operand precedence left ++ sign ++ operand (precedence + 1) right
  | ps => sequence sign ps

def nary (precedence : Nat) (sign : String) (ps : List Piece) : String :=
  sign.intercalate (ps.map (operand precedence))

def comparisonSign : Comparison → String
  | .equal => " = "
  | .notEqual => " <> "
  | .less => " < "
  | .lessOrEqual => " <= "
  | .greater => " > "
  | .greaterOrEqual => " >= "

def arithmeticSign : ArithmeticOperator → String
  | .add => " + "
  | .subtract => " - "
  | .multiply => " * "
  | .divide => " / "

def clockText : ClockItem → String
  | .date => "CURRENT_DATE"
  | .time => "CURRENT_TIME"
  | .timestamp => "CURRENT_TIMESTAMP"

def contextText : ContextItem → String
  | .principal => "CURRENT_PRINCIPAL"
  | .roles => "CURRENT_ROLES"
  | .tenant => "CURRENT_TENANT"

/-- The items of a membership test; a subselect brings its own brackets. -/
def items : List Piece → String
  | [p] => if p.label = .subselect then p.text else s!"({p.text})"
  | ps => "(" ++ sequence ", " ps ++ ")"

/-- What stands behind the first operand of a predicate, `word` being either
empty or the negation. -/
def predicateTail (label : Label) (word : String) (rest : List Piece) : String :=
  match label with
  | .between =>
      s!" {word}BETWEEN " ++
        match rest with
        | [lower, upper] => operand 5 lower ++ " AND " ++ operand 5 upper
        | _ => ""
  | .isIn => s!" {word}IN " ++ items rest
  | .like =>
      s!" {word}LIKE " ++
        match rest with
        | [] => ""
        | pattern :: more =>
            operand 5 pattern ++
              match more with
              | [] => ""
              | escape :: _ => " ESCAPE " ++ escape.text
  | .isNull => s!" IS {word}NULL"
  | .isEmpty => s!" IS {word}EMPTY"
  | .memberOf =>
      s!" {word}MEMBER OF " ++
        match rest with
        | [] => ""
        | collection :: _ => collection.text
  | _ => ""

/-- The labels whose negation is written inside the phrase. -/
def isPredicate : Label → Bool
  | .between | .isIn | .like | .isNull | .isEmpty | .memberOf => true
  | _ => false

def predicate (label : Label) (word : String) : List Piece → String
  | [] => ""
  | value :: rest => operand 5 value ++ predicateTail label word rest

def negation : List Piece → String
  | [] => "NOT"
  | p :: _ => p.negated.getD ("NOT " ++ operand 3 p)

def trimmed (side : Option TrimSide) (ps : List Piece) : String :=
  let sideText := match side with
    | some s => s!"{s.text} "
    | none => ""
  let character := match ps with
    | [c, _] => s!"{c.text} "
    | _ => ""
  let connector := if side.isSome || ps.length == 2 then "FROM " else ""
  let text := match ps.getLast? with
    | some p => p.text
    | none => ""
  "TRIM(" ++ sideText ++ character ++ connector ++ text ++ ")"

/-- The text of a phrase from the texts of its children. -/
def phrase (label : Label) (ps : List Piece) : String :=
  match label with
  | .selectStatement | .updateStatement | .deleteStatement | .fromItem =>
      sequence " " ps
  | .accessRule kinds =>
      "GRANT " ++ String.join (kinds.map fun k => s!"{k.text} ") ++ "ACCESS TO "
        ++ sequence " " ps
  | .subselect | .brackets => "(" ++ sequence " " ps ++ ")"
  | .selectClause distinct =>
      (if distinct then "SELECT DISTINCT " else "SELECT ") ++ sequence ", " ps
  | .fromClause => "FROM " ++ sequence ", " ps
  | .join outer fetch =>
      (if outer then "LEFT OUTER JOIN " else "INNER JOIN ")
        ++ (if fetch then "FETCH " else "") ++ sequence " " ps
  | .whereClause => "WHERE " ++ sequence " " ps
  | .groupByClause => "GROUP BY " ++ sequence ", " ps
  | .havingClause => "HAVING " ++ sequence " " ps
  | .orderByClause => "ORDER BY " ++ sequence ", " ps
  | .orderByItem descending =>
      sequence " " ps ++ if descending then " DESC" else ""
  | .updateClause => "UPDATE " ++ sequence " " ps
  | .deleteClause => "DELETE FROM " ++ sequence " " ps
  | .setClause => "SET " ++ sequence ", " ps
  | .assignment => sequence " = " ps
  | .newObject type => "NEW " ++ call type ps
  | .aggregate function distinct =>
      s!"{function.text}(" ++ (if distinct then "DISTINCT " else "")
        ++ sequence ", " ps ++ ")"
  | .or => nary 1 " OR " ps
  | .and => nary 2 " AND " ps
  | .not => negation ps
  | .compare operator => binary 4 (comparisonSign operator) ps
  | .between | .isIn | .like | .isNull | .isEmpty | .memberOf =>
      predicate label "" ps
  | .exist => "EXISTS " ++ sequence " " ps
  | .arithmetic operator =>
      binary label.precedence (arithmeticSign operator) ps
  | .negative =>
      "-" ++ match ps with
        | [] => ""
        | p :: _ => operand 7 p
  | .mod => call "MOD" ps
  | .abs => call "ABS" ps
  | .sqrt => call "SQRT" ps
  | .size => call "SIZE" ps
  | .concat => call "CONCAT" ps
  | .substring => call "SUBSTRING" ps
  | .trim side => trimmed side ps
  | .upper => call "UPPER" ps
  | .lower => call "LOWER" ps
  | .length => call "LENGTH" ps
  | .locate => call "LOCATE" ps
  | .clock item => clockText item
  | .context item => contextText item
  | .entityName text | .identifier text | .segment text | .stringLiteral text
  | .integerLiteral text | .decimalLiteral text => text
  | .path => sequence "." ps
  | .namedParameter name => s!":{name}"
  | .positionalParameter index => s!"?{index}"
  | .booleanLiteral value => if value then "TRUE" else "FALSE"
  | .null => "NULL"

def compose (label : Label) (ps : List Piece) : Piece where
  label := label
  text := phrase label ps
  negated := if isPredicate label then some (predicate label "NOT " ps) else none

mutual

def piece : Phrase → Piece
  | .node label cs _ => compose label (pieces cs)

def pieces : List Phrase → List Piece
  | [] => []
  | t :: ts => piece t :: pieces ts

end

end Rendering

/-- The canonical text of a phrase. -/
def Phrase.render (t : Phrase) : String := (Rendering.piece t).text

end RowGuard.Query
