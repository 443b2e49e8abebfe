import RowGuard.Fault
import RowGuard.World

/-!
# Arithmetic on values

Null is passed on.  Integers stay integers as long as the result fits; what does
not fit, and every quotient, is a decimal.  Dividing by zero and the root of a
negative number are undefined.
-/

namespace RowGuard.Arithmetic

open Query (ArithmeticOperator)

/-- A result, none being undefined. -/
abbrev Result := Except Fault (Option Value)

def give (v : Value) : Result := .ok (some v)

def undefined : Result := .ok none

/-- The decimal that an operand stands for. -/
def decimal (w : World) (operation : String) (v : Value) : Except Fault Decimal :=
  match v.toDecimal? with
  | some d => .ok d
  | none => .error (.violation (.notNumeric operation (w.typeName v)))

/-- The integer result of an operation on integers, where there is one. -/
def whole? (op : ArithmeticOperator) (a b : Int64) : Option Int64 :=
  let within (n : Int) : Option Int64 :=
    if fitsInteger n then some (Int64.ofInt n) else none
  match op with
  | .add => within (a.toInt + b.toInt)
  | .subtract => within (a.toInt - b.toInt)
  | .multiply => within (a.toInt * b.toInt)
  | .divide => none

def onDecimals (op : ArithmeticOperator) (x y : Decimal) : Result :=
  match op with
  | .add => give (.decimal (x.add y))
  | .subtract => give (.decimal (x.sub y))
  | .multiply => give (.decimal (x.mul y))
  | .divide => if y.isZero then undefined else give (.decimal (x.div y))

def wholeOf? (op : ArithmeticOperator) : Value → Value → Option Int64
  | .integer a, .integer b => whole? op a b
  | _, _ => none

def binary (w : World) (op : ArithmeticOperator) (left right : Value) : Result :=
  if left.isNull || right.isNull then give .null
  else
    match wholeOf? op left right with
    | some n => give (.integer n)
    | none => do
        let x ← decimal w "arithmetic" left
        let y ← decimal w "arithmetic" right
        onDecimals op x y

def negate (w : World) : Value → Result
  | .null => give .null
  | .integer n => give (Value.ofInt (-n.toInt))
  | v => do give (.decimal (← decimal w "negation" v).neg)

def modulo (w : World) (left right : Value) : Result :=
  if left.isNull || right.isNull then give .null
  else
    match left, right with
    | .integer a, .integer b =>
        if b = 0 then undefined else give (Value.ofInt (Int.tmod a.toInt b.toInt))
    | _, _ => do
        let x ← decimal w "MOD" left
        let y ← decimal w "MOD" right
        if y.isZero then undefined else give (.decimal (x.rem y))

def abs (w : World) : Value → Result
  | .null => give .null
  | .integer n => give (Value.ofInt n.toInt.natAbs)
  | v => do give (.decimal (← decimal w "ABS" v).abs)

def sqrt (w : World) (v : Value) : Result :=
  if v.isNull then give .null
  else do
    let x ← decimal w "SQRT" v
    return x.sqrt?.map Value.decimal

/-- The number of elements; a single value counts as one. -/
def size : Value → Value
  | .null => .integer 0
  | .collection items => Value.ofInt items.length
  | _ => .integer 1

end RowGuard.Arithmetic
