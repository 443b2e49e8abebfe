import RowGuard.Query.Keyword

/-!
# Labels

A label says what a node of a phrase stands for.  Labels that differ only
in an operator or in a flag are one constructor with that operator or flag.
-/

namespace RowGuard.Query

/-- The ways of using an object that a rule can grant, in their fixed order. -/
inductive AccessKind where
  | create | read | update | delete
deriving DecidableEq, Inhabited

namespace AccessKind

def all : List AccessKind := [.create, .read, .update, .delete]

def text : AccessKind → String
  | .create => "CREATE"
  | .read => "READ"
  | .update => "UPDATE"
  | .delete => "DELETE"

def name : AccessKind → String
  | .create => "Create"
  | .read => "Read"
  | .update => "Update"
  | .delete => "Delete"

theorem mem_all (k : AccessKind) : k ∈ all := by
  cases k <;> decide

end AccessKind

inductive Aggregate where
  | avg | max | min | sum | count
deriving DecidableEq

namespace Aggregate

def all : List Aggregate := [.avg, .max, .min, .sum, .count]

def text : Aggregate → String
  | .avg => "AVG"
  | .max => "MAX"
  | .min => "MIN"
  | .sum => "SUM"
  | .count => "COUNT"

def name : Aggregate → String
  | .avg => "Avg"
  | .max => "Max"
  | .min => "Min"
  | .sum => "Sum"
  | .count => "Count"

/-- The aggregate that a word names in any case. -/
def ofWord? (word : String) : Option Aggregate :=
  all.find? fun a => a.text == word.toUpper

end Aggregate

/-- The side of a text that trimming works on. -/
inductive TrimSide where
  | leading | trailing | both
deriving DecidableEq

namespace TrimSide

def text : TrimSide → String
  | .leading => "LEADING"
  | .trailing => "TRAILING"
  | .both => "BOTH"

def name : TrimSide → String
  | .leading => "Leading"
  | .trailing => "Trailing"
  | .both => "Both"

end TrimSide

inductive Comparison where
  | equal | notEqual | less | lessOrEqual | greater | greaterOrEqual
deriving DecidableEq

inductive ArithmeticOperator where
  | add | subtract | multiply | divide
deriving DecidableEq

/-- The readings of the clock. -/
inductive ClockItem where
  | date | time | timestamp
deriving DecidableEq

/-- The parts of the security context that a phrase can name. -/
inductive ContextItem where
  | principal | roles | tenant
deriving DecidableEq

/-- What a node of a phrase stands for.  The comment after a label lists the
children that reading gives it, `?` marking those that may be missing. -/
inductive Label where
  | selectStatement -- select clause, from clause, where? group? having? order?
  | updateStatement -- update clause, set clause, where?
  | deleteStatement -- delete clause, where?
  | accessRule (kinds : List AccessKind) -- entity name, alias, where?
  | subselect -- select clause, from clause, where? group? having?
  | selectClause (distinct : Bool)
  | fromClause
  | fromItem -- entity name, alias, joins
  | join (outer fetch : Bool) -- path, alias?
  | whereClause
  | groupByClause
  | havingClause
  | orderByClause
  | orderByItem (descending : Bool)
  | updateClause -- entity name, alias
  | deleteClause -- entity name, alias
  | setClause
  | assignment -- target, value
  | newObject (type : String)
  | aggregate (function : Aggregate) (distinct : Bool)
  | or
  | and
  | not
  | brackets
  | compare (operator : Comparison)
  | between -- value, lower, upper
  | isIn -- value, items or one subselect
  | like -- value, pattern, escape?
  | isNull
  | isEmpty
  | memberOf -- value, collection
  | exist -- subselect
  | arithmetic (operator : ArithmeticOperator)
  | negative
  | mod
  | abs
  | sqrt
  | size
  | concat
  | substring -- text, start, length?
  | trim (side : Option TrimSide) -- character? text
  | upper
  | lower
  | length
  | locate -- searched, text, start?
  | clock (item : ClockItem)
  | context (item : ContextItem)
  | entityName (name : String)
  | identifier (name : String)
  | segment (name : String)
  | path -- root, segments
  | namedParameter (name : String)
  | positionalParameter (index : Nat)
  | stringLiteral (text : String) -- with its quotes
  | integerLiteral (text : String)
  | decimalLiteral (text : String)
  | booleanLiteral (value : Bool)
  | null
deriving DecidableEq

namespace Label

/-- Phrases that are true or false. -/
def isCondition : Label → Bool
  | .or | .and | .not | .compare _ | .between | .isIn | .like | .isNull
  | .isEmpty | .memberOf | .exist => true
  | _ => false

def isComparison : Label → Bool
  | .compare _ => true
  | _ => false

/-- Phrases without children of their own. -/
def isTerminal : Label → Bool
  | .entityName _ | .identifier _ | .segment _ | .namedParameter _
  | .positionalParameter _ | .stringLiteral _ | .integerLiteral _
  | .decimalLiteral _ | .booleanLiteral _ | .null | .clock _ | .context _ => true
  | _ => false

/-- Phrases that need no brackets anywhere. -/
def isAtomic (l : Label) : Bool :=
  l.isTerminal || match l with
    | .path | .brackets | .subselect | .aggregate _ _ | .mod | .abs | .sqrt
    | .size | .concat | .substring | .trim _ | .upper | .lower | .length
    | .locate => true
    | _ => false

/-- The name of the kind of phrase, its payload left out. -/
def name : Label → String
  | .selectStatement => "SelectStatement"
  | .updateStatement => "UpdateStatement"
  | .deleteStatement => "DeleteStatement"
  | .accessRule _ => "AccessRule"
  | .subselect => "Subselect"
  | .selectClause _ => "SelectClause"
  | .fromClause => "FromClause"
  | .fromItem => "FromItem"
  | .join false _ => "InnerJoin"
  | .join true _ => "OuterJoin"
  | .whereClause => "WhereClause"
  | .groupByClause => "GroupByClause"
  | .havingClause => "HavingClause"
  | .orderByClause => "OrderByClause"
  | .orderByItem _ => "OrderByItem"
  | .updateClause => "UpdateClause"
  | .deleteClause => "DeleteClause"
  | .setClause => "SetClause"
  | .assignment => "Assignment"
  | .newObject _ => "Constructor"
  | .aggregate _ _ => "Aggregate"
  | .or => "Or"
  | .and => "And"
  | .not => "Not"
  | .brackets => "Brackets"
  | .compare .equal => "Equals"
  | .compare .notEqual => "NotEquals"
  | .compare .less => "LessThan"
  | .compare .lessOrEqual => "LessOrEqual"
  | .compare .greater => "GreaterThan"
  | .compare .greaterOrEqual => "GreaterOrEqual"
  | .between => "Between"
  | .isIn => "In"
  | .like => "Like"
  | .isNull => "IsNull"
  | .isEmpty => "IsEmpty"
  | .memberOf => "MemberOf"
  | .exist => "Exists"
  | .arithmetic .add => "Add"
  | .arithmetic .subtract => "Subtract"
  | .arithmetic .multiply => "Multiply"
  | .arithmetic .divide => "Divide"
  | .negative => "Negative"
  | .mod => "Mod"
  | .abs => "Abs"
  | .sqrt => "Sqrt"
  | .size => "Size"
  | .concat => "Concat"
  | .substring => "Substring"
  | .trim _ => "Trim"
  | .upper => "Upper"
  | .lower => "Lower"
  | .length => "Length"
  | .locate => "Locate"
  | .clock .date => "CurrentDate"
  | .clock .time => "CurrentTime"
  | .clock .timestamp => "CurrentTimestamp"
  | .context .principal => "CurrentPrincipal"
  | .context .roles => "CurrentRoles"
  | .context .tenant => "CurrentTenant"
  | .entityName _ => "AbstractSchemaName"
  | .identifier _ => "Identifier"
  | .segment _ => "PathSegment"
  | .path => "Path"
  | .namedParameter _ => "NamedParameter"
  | .positionalParameter _ => "PositionalParameter"
  | .stringLiteral _ => "StringLiteral"
  | .integerLiteral _ => "IntegerLiteral"
  | .decimalLiteral _ => "DecimalLiteral"
  | .booleanLiteral _ => "BooleanLiteral"
  | .null => "Null"

/-- The text that a name or a literal carries. -/
def text? : Label → Option String
  | .entityName s | .identifier s | .segment s | .namedParameter s
  | .stringLiteral s | .integerLiteral s | .decimalLiteral s => some s
  | _ => none

end Label

end RowGuard.Query
