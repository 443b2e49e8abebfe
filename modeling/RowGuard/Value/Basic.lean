import RowGuard.Value.Calendar
import RowGuard.Value.Decimal.Rounding

/-!
# Values

What expressions evaluate to and what objects hold.  An object itself appears
as a reference: its properties belong to the world it lives in, and objects may
refer to one another in cycles.  Integers have 64 bits; whatever leaves that
range is a decimal.
-/

namespace RowGuard

/-- The place of an object in its world. -/
abbrev ObjectId := Nat

inductive Value where
  | null
  | boolean (value : Bool)
  | integer (value : Int64)
  | decimal (value : Decimal)
  | string (value : String)
  | date (value : Date)
  | time (value : Time)
  | timestamp (value : Timestamp)
  | entity (id : ObjectId)
  | collection (items : List Value)
  /-- One row of a query that selects several paths. -/
  | tuple (items : List Value)
deriving Inhabited

namespace Value

def isNull : Value → Bool
  | .null => true
  | _ => false

def boolean? : Value → Option Bool
  | .boolean b => some b
  | _ => none

def integer? : Value → Option Int64
  | .integer n => some n
  | _ => none

def string? : Value → Option String
  | .string s => some s
  | _ => none

def entity? : Value → Option ObjectId
  | .entity id => some id
  | _ => none

/-- The number that a value stands for. -/
def toDecimal? : Value → Option Decimal
  | .integer n => some (.ofInt n.toInt)
  | .decimal d => some d
  | _ => none

def isNumeric (v : Value) : Bool := v.toDecimal?.isSome

/-- An integer where it fits into 64 bits, a decimal otherwise. -/
def ofInt (n : Int) : Value :=
  if fitsInteger n then .integer (Int64.ofInt n) else .decimal (.ofInt n)

/-- The elements of a collection; a single value is its own element, and null
has none. -/
def items : Value → List Value
  | .null => []
  | .collection items => items
  | v => [v]

/-- What a path yields: nothing is null, and a single value stands alone. -/
def collapse : List Value → Value
  | [] => .null
  | [v] => v
  | vs => .collection vs

/-- Compares two values of one kind.  Numbers compare by value, and a date
stands for its first moment beside a timestamp. -/
def compare? : Value → Value → Option Ordering
  | .boolean a, .boolean b => some (Ord.compare a b)
  | .string a, .string b => some (Ord.compare a b)
  | .date a, .date b => some (a.compare b)
  | .time a, .time b => some (a.compare b)
  | .timestamp a, .timestamp b => some (a.compare b)
  | .date a, .timestamp b => some ((Timestamp.startOf a).compare b)
  | .timestamp a, .date b => some (a.compare (Timestamp.startOf b))
  | a, b => do
      let x ← a.toDecimal?
      let y ← b.toDecimal?
      return x.compare y

/-! ## Agreement

Two values agree when they are built alike from equal parts; which objects are
equal is decided elsewhere. -/

mutual

def agree (sameObject : ObjectId → ObjectId → Bool) : Value → Value → Bool
  | .null, .null => true
  | .boolean a, .boolean b => a == b
  | .string a, .string b => a == b
  | .date a, .date b => a == b
  | .time a, .time b => a == b
  | .timestamp a, .timestamp b => a == b
  | .entity a, .entity b => sameObject a b
  | .collection as, .collection bs => agreeAll sameObject as bs
  | .tuple as, .tuple bs => agreeAll sameObject as bs
  | a, b =>
      match a.toDecimal?, b.toDecimal? with
      | some x, some y => x.same y
      | _, _ => false

def agreeAll (sameObject : ObjectId → ObjectId → Bool) : List Value → List Value → Bool
  | [], [] => true
  | a :: as, b :: bs => agree sameObject a b && agreeAll sameObject as bs
  | _, _ => false

end

/-! ## Texts -/

mutual

/-- The text of a value, given the texts of objects. -/
def textWith (objectText : ObjectId → String) : Value → String
  | .null => "NULL"
  | .boolean b => toString b
  | .integer n => toString n.toInt
  | .decimal d => d.text
  | .string s => s
  | .date d => d.text
  | .time t => t.text
  | .timestamp t => t.text
  | .entity id => objectText id
  | .collection items | .tuple items =>
      "[" ++ ", ".intercalate (textsWith objectText items) ++ "]"

def textsWith (objectText : ObjectId → String) : List Value → List String
  | [] => []
  | v :: vs => textWith objectText v :: textsWith objectText vs

end

end Value

end RowGuard
