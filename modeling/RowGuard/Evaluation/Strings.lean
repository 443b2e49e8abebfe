import RowGuard.Evaluation.Arithmetic
import RowGuard.Text.Casing
import RowGuard.Text.Wildcard

/-!
# Functions on strings

Positions and lengths count characters, the first of which has position one.
Null is passed on.  Numbers, dates and truth values count as the texts they are
written as; objects and collections are refused.
-/

namespace RowGuard.Strings

open Arithmetic (Result give undefined)
open Query (TrimSide)

/-- The text of an operand. -/
def text (w : World) (function : String) (v : Value) : Except Fault String :=
  match v with
  | .collection _ | .tuple _ | .entity _ =>
      .error (.violation (.notText function (w.typeName v)))
  | v => .ok (w.text v)

/-- The whole part of an operand. -/
def integer (w : World) (function : String) (v : Value) : Except Fault Int :=
  match v with
  | .integer n => .ok n.toInt
  | .decimal d =>
      match d.toInt64? with
      | some n => .ok n.toInt
      | none => .error (.violation (.outOfRange function d.text))
  | v => .error (.violation (.notInteger function (w.typeName v)))

/-- The only character of an operand. -/
def character (w : World) (function : String) (v : Value) : Except Fault Char := do
  let s ← text w function v
  match s.toList with
  | [c] => return c
  | _ => .error (.violation (.notOneCharacter function s))

def giveText (s : String) : Result := give (.string s)

def concat (w : World) (vs : List Value) : Result :=
  if vs.any Value.isNull then give .null
  else do
    let texts ← vs.mapM (text w "CONCAT")
    giveText (String.join texts)

/-- The characters from a position on. -/
def charactersFrom (start : Int) (cs : List Char) : List Char :=
  cs.drop (max start 1 - 1).toNat

def substring (w : World) (v start : Value) (length? : Option Value) : Result :=
  if v.isNull || start.isNull || (length?.map Value.isNull).getD false then give .null
  else do
    let s ← text w "SUBSTRING" v
    let from_ ← integer w "SUBSTRING" start
    let rest := charactersFrom from_ s.toList
    match length? with
    | none => giveText (String.ofList rest)
    | some length => do
        let count ← integer w "SUBSTRING" length
        giveText (String.ofList (rest.take count.toNat))

/-- The characters without those equal to `c` at the front. -/
def trimFront (c : Char) (cs : List Char) : List Char := cs.dropWhile (· == c)

def trimBack (c : Char) (cs : List Char) : List Char :=
  (trimFront c cs.reverse).reverse

def trimAt (side : TrimSide) (c : Char) (cs : List Char) : List Char :=
  match side with
  | .leading => trimFront c cs
  | .trailing => trimBack c cs
  | .both => trimBack c (trimFront c cs)

/-- Trims both sides and of blanks unless it is told otherwise. -/
def trim (w : World) (side? : Option TrimSide) (character? : Option Value) (v : Value) :
    Result :=
  if v.isNull || (character?.map Value.isNull).getD false then give .null
  else do
    let c ← match character? with
      | some c => character w "TRIM" c
      | none => .ok ' '
    let s ← text w "TRIM" v
    giveText (String.ofList (trimAt (side?.getD .both) c s.toList))

def upper (w : World) (v : Value) : Result :=
  if v.isNull then give .null else do giveText (Text.Casing.upper (← text w "UPPER" v))

def lower (w : World) (v : Value) : Result :=
  if v.isNull then give .null else do giveText (Text.Casing.lower (← text w "LOWER" v))

def length (w : World) (v : Value) : Result :=
  if v.isNull then give .null
  else do
    let s ← text w "LENGTH" v
    give (Value.ofInt s.toList.length)

/-- How many characters stand before the first occurrence. -/
def offset? (searched : List Char) : List Char → Option Nat
  | [] => if searched.isEmpty then some 0 else none
  | c :: cs =>
      if searched.isPrefixOf (c :: cs) then some 0 else (offset? searched cs).map (· + 1)

/-- The position of the first occurrence at or behind `start`, zero if there is
none. -/
def position (searched cs : List Char) (start : Int) : Nat :=
  let skipped := (max start 1 - 1).toNat
  if cs.length < skipped then 0
  else
    match offset? searched (cs.drop skipped) with
    | some n => skipped + n + 1
    | none => 0

def locate (w : World) (searched v : Value) (start? : Option Value) : Result :=
  if searched.isNull || v.isNull || (start?.map Value.isNull).getD false then give .null
  else do
    let needle ← text w "LOCATE" searched
    let s ← text w "LOCATE" v
    let start ← match start? with
      | some start => integer w "LOCATE" start
      | none => .ok 1
    give (Value.ofInt (position needle.toList s.toList start))

/-- The character that makes a wildcard ordinary unless another one is given. -/
def defaultEscape : Char := '\\'

/-- Whether a text matches a pattern; only strings can. -/
def like (w : World) (v pattern : Value) (escape? : Option Value) : Result :=
  let withEscape (escape : Char) : Result :=
    match v, pattern with
    | .string s, .string p => give (.boolean (Text.Wildcard.matchesPattern escape p s))
    | _, _ => undefined
  match escape? with
  | none => withEscape defaultEscape
  | some .null => undefined
  | some c => do withEscape (← character w "ESCAPE" c)

end RowGuard.Strings
