import RowGuard.Evaluation.Strings

/-!
# Operations

Most phrases are operations: all operands are evaluated first, and the result
depends on their values alone.  Here stands how many operands each phrase takes
and what the operations yield.
-/

namespace RowGuard.Operation

open Arithmetic (Result give undefined)
open Query (Comparison Label)

/-- The least and, unless there is no limit, the greatest number of operands. -/
def operands : Label → Nat × Option Nat
  | .whereClause | .havingClause | .brackets | .not | .isNull | .isEmpty | .exist
  | .negative | .abs | .sqrt | .size | .upper | .lower | .length => (1, some 1)
  | .or | .and => (1, none)
  | .compare _ | .memberOf | .arithmetic _ | .mod => (2, some 2)
  | .between => (3, some 3)
  | .isIn | .concat => (2, none)
  | .like | .substring | .locate => (2, some 3)
  | .trim _ => (1, some 2)
  | _ => (0, none)

/-- Whether a phrase can have this many operands. -/
def admits (l : Label) (count : Nat) : Bool :=
  match operands l with
  | (least, none) => least ≤ count
  | (least, some greatest) => least ≤ count && count ≤ greatest

def giveTruth (b : Bool) : Result := give (.boolean b)

/-- Whether an order is the one that a comparison asks for. -/
def meets (op : Comparison) (o : Ordering) : Bool :=
  match op with
  | .equal => o == .eq
  | .notEqual => o != .eq
  | .less => o == .lt
  | .lessOrEqual => o != .gt
  | .greater => o == .gt
  | .greaterOrEqual => o != .lt

/-- Null is equal to nothing, and whether it differs cannot be told; likewise
the order of values that do not compare. -/
def compare (w : World) (op : Comparison) (left right : Value) : Result :=
  match op with
  | .equal => giveTruth (!left.isNull && !right.isNull && w.same left right)
  | .notEqual =>
      if left.isNull || right.isNull then undefined else giveTruth (!w.same left right)
  | op =>
      match left.compare? right with
      | some o => giveTruth (meets op o)
      | none => undefined

def isEmpty : Value → Bool
  | .null => true
  | .collection items => items.isEmpty
  | _ => false

/-- Null is no member of anything, and a single value is its own only member. -/
def isMember (w : World) (v collection : Value) : Bool :=
  !v.isNull && match collection with
    | .null => false
    | .collection items => w.member v items
    | single => w.same single v

/-- Why a phrase has no value: what it stands for is known to the store only, or
it stands for no value at all. -/
def refusal : Label → Fault
  | .aggregate function distinct => .undecidable (.label (.aggregate function distinct))
  | .newObject type => .undecidable (.label (.newObject type))
  | l => .violation (.notAnExpression l)

/-- What an operation yields for its operands. -/
def apply (w : World) (l : Label) (vs : List Value) : Result :=
  match l, vs with
  | .compare op, [left, right] => compare w op left right
  | .isNull, [v] => giveTruth v.isNull
  | .isEmpty, [v] => giveTruth (isEmpty v)
  | .memberOf, [v, collection] => giveTruth (isMember w v collection)
  | .exist, [rows] => giveTruth (!rows.items.isEmpty)
  | .like, [v, pattern] => Strings.like w v pattern none
  | .like, [v, pattern, escape] => Strings.like w v pattern (some escape)
  | .arithmetic op, [left, right] => Arithmetic.binary w op left right
  | .negative, [v] => Arithmetic.negate w v
  | .mod, [left, right] => Arithmetic.modulo w left right
  | .abs, [v] => Arithmetic.abs w v
  | .sqrt, [v] => Arithmetic.sqrt w v
  | .size, [v] => give (Arithmetic.size v)
  | .concat, vs => Strings.concat w vs
  | .substring, [v, start] => Strings.substring w v start none
  | .substring, [v, start, length] => Strings.substring w v start (some length)
  | .trim side, [v] => Strings.trim w side none v
  | .trim side, [c, v] => Strings.trim w side (some c) v
  | .upper, [v] => Strings.upper w v
  | .lower, [v] => Strings.lower w v
  | .length, [v] => Strings.length w v
  | .locate, [searched, v] => Strings.locate w searched v none
  | .locate, [searched, v, start] => Strings.locate w searched v (some start)
  | _, _ => .error (refusal l)

/-- The labels that are operations. -/
def isOperation : Label → Bool
  | .compare .equal => false
  | .compare _ | .isNull | .isEmpty | .memberOf | .exist | .like | .arithmetic _
  | .negative | .mod | .abs | .sqrt | .size | .concat | .substring | .trim _ | .upper
  | .lower | .length | .locate => true
  | _ => false

/-- Whether a value lies between two bounds, as far as they are defined.  One
bound that it lies outside of is enough to tell that it does not. -/
def isBetween (v : Value) (lower? upper? : Option Value) : Option Bool :=
  let low := lower?.bind v.compare?
  let high := upper?.bind v.compare?
  if low = some .lt ∨ high = some .gt then some false
  else if low.isNone ∨ high.isNone then none
  else some true

/-- The truth of a condition's result; null is undecided like undefined. -/
def truth (w : World) : Option Value → Except Fault (Option Bool)
  | none | some .null => .ok none
  | some (.boolean b) => .ok (some b)
  | some v => .error (.violation (.notACondition (w.typeName v)))

/-- The value of an integer literal, a decimal if it does not fit. -/
def integerLiteral (text : String) : Result :=
  match (integerOfChars? text.toList).map Value.ofInt with
  | some (.integer n) => give (.integer n)
  | _ =>
      match Decimal.ofText? text with
      | some d => give (.decimal d)
      | none => .error (.violation (.numericLiteral text))

def decimalLiteral (text : String) : Result :=
  match Decimal.ofText? text with
  | some d => give (.decimal d)
  | none => .error (.violation (.numericLiteral text))

end RowGuard.Operation
