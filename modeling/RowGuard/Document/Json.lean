import RowGuard.Document.NumberRange
import RowGuard.Value.Decimal.Text

/-!
# Documents

Mappings and rules may come as a document: nested objects and arrays of
strings, numbers, truth values and null.  Reading is strict: nothing may follow
the document, numbers have no superfluous zeros, and strings no raw control
characters.  Numbers keep their text, since few of them matter.  An escape may
name half of a character only; such a string is read, but it has no text.  What
nobody asks for may hold such strings, and numbers of any size.
-/

namespace RowGuard.Document

inductive Json where
  | null
  | boolean (value : Bool)
  | number (text : String)
  /-- A string; it has no text if an escape names half of a character only. -/
  | string (text? : Option String)
  | array (items : List Json)
  /-- An object, whose names are strings of the same kind. -/
  | object (fields : List (Option String × Json))
deriving Inhabited

namespace Json

/-! ## Reading

Each reader takes characters from the front and gives the rest.  Values nest, so
the reader of values has a budget, which the length of the text always covers. -/

namespace Reading

def isBlank (c : Char) : Bool := c = ' ' || c = '\n' || c = '\t' || c = '\r'

def skipBlanks (cs : List Char) : List Char := cs.dropWhile isBlank

def isDigit (c : Char) : Bool := (digitValue? c).isSome

def hexValue? (c : Char) : Option Nat :=
  if '0' ≤ c ∧ c ≤ '9' then some (c.toNat - '0'.toNat)
  else if 'a' ≤ c ∧ c ≤ 'f' then some (c.toNat - 'a'.toNat + 10)
  else if 'A' ≤ c ∧ c ≤ 'F' then some (c.toNat - 'A'.toNat + 10)
  else none

/-- The number that four hexadecimal digits denote. -/
def fourDigits : List Char → Option (Nat × List Char)
  | a :: b :: c :: d :: rest => do
      let n ← [a, b, c, d].foldlM (fun n x => (hexValue? x).map (16 * n + ·)) 0
      return (n, rest)
  | _ => none

/-- One code unit of a string: a character, or half of one. -/
inductive Unit16 where
  | char (c : Char)
  | half (n : Nat)

def Unit16.ofNat (n : Nat) : Unit16 :=
  if 0xD800 ≤ n ∧ n < 0xE000 then .half n else .char (Char.ofNat n)

/-- The character that a letter behind a backslash stands for. -/
def shortEscape? (c : Char) : Option Char :=
  match c with
  | '"' | '\\' | '/' => some c
  | 'b' => some '\x08'
  | 'f' => some '\x0c'
  | 'n' => some '\n'
  | 'r' => some '\r'
  | 't' => some '\t'
  | _ => none

/-- One unit of a string, which does not end here. -/
def stringUnit : List Char → Option (Unit16 × List Char)
  | '\\' :: 'u' :: rest => do
      let (n, rest) ← fourDigits rest
      return (.ofNat n, rest)
  | '\\' :: c :: rest => (shortEscape? c).map fun d => (.char d, rest)
  | c :: rest => if c.toNat < 0x20 ∨ c = '\\' then none else some (.char c, rest)
  | [] => none

/-- The units of a string behind its opening quote. -/
def stringUnits : Nat → List Char → Option (List Unit16 × List Char)
  | 0, _ => none
  | _ + 1, '"' :: rest => some ([], rest)
  | budget + 1, cs => do
      let (u, rest) ← stringUnit cs
      let (us, rest) ← stringUnits budget rest
      return (u :: us, rest)

/-- The characters of a string, two halves that belong together joined. -/
def joinHalves : List Unit16 → Option (List Char)
  | [] => some []
  | .char c :: rest => (joinHalves rest).map (c :: ·)
  | .half high :: .half low :: rest =>
      if high < 0xDC00 ∧ 0xDC00 ≤ low then
        (joinHalves rest).map
          (Char.ofNat (0x10000 + (high - 0xD800) * 0x400 + (low - 0xDC00)) :: ·)
      else none
  | _ => none

/-- The text of a string behind its opening quote. -/
def stringText (cs : List Char) : Option (Option String × List Char) := do
  let (us, rest) ← stringUnits (cs.length + 1) cs
  return ((joinHalves us).map String.ofList, rest)

def digits (cs : List Char) : List Char × List Char :=
  (cs.takeWhile isDigit, cs.dropWhile isDigit)

/-- At least one digit. -/
def someDigits (cs : List Char) : Option (List Char × List Char) :=
  match digits cs with
  | ([], _) => none
  | found => some found

/-- A whole number without superfluous zeros. -/
def wholeDigits (cs : List Char) : Option (List Char × List Char) :=
  match cs with
  | '0' :: rest => if (rest.head?.map isDigit).getD false then none else some (['0'], rest)
  | _ => someDigits cs

def fraction (cs : List Char) : Option (List Char × List Char) :=
  match cs with
  | '.' :: rest => (someDigits rest).map fun (ds, rest) => ('.' :: ds, rest)
  | _ => some ([], cs)

def exponent (cs : List Char) : Option (List Char × List Char) :=
  match cs with
  | mark :: rest =>
      if mark = 'e' ∨ mark = 'E' then
        match rest with
        | sign :: more =>
            if sign = '+' ∨ sign = '-' then
              (someDigits more).map fun (ds, rest) => (mark :: sign :: ds, rest)
            else (someDigits rest).map fun (ds, rest) => (mark :: ds, rest)
        | [] => none
      else some ([], cs)
  | [] => some ([], [])

def unsignedNumber (cs : List Char) : Option (List Char × List Char) := do
  let (whole, rest) ← wholeDigits cs
  let (part, rest) ← fraction rest
  let (power, rest) ← exponent rest
  return (whole ++ part ++ power, rest)

def number (cs : List Char) : Option (Json × List Char) :=
  match cs with
  | '-' :: rest => (unsignedNumber rest).map fun (ds, rest) =>
      (.number (String.ofList ('-' :: ds)), rest)
  | _ => (unsignedNumber cs).map fun (ds, rest) => (.number (String.ofList ds), rest)

mutual

/-- A value, blanks before it being passed over. -/
def value : Nat → List Char → Option (Json × List Char)
  | 0, _ => none
  | budget + 1, cs =>
      match skipBlanks cs with
      | 'n' :: 'u' :: 'l' :: 'l' :: rest => some (.null, rest)
      | 't' :: 'r' :: 'u' :: 'e' :: rest => some (.boolean true, rest)
      | 'f' :: 'a' :: 'l' :: 's' :: 'e' :: rest => some (.boolean false, rest)
      | '"' :: rest => (stringText rest).map fun (s, rest) => (.string s, rest)
      | '[' :: rest =>
          match skipBlanks rest with
          | ']' :: rest => some (.array [], rest)
          | _ => (items budget rest).map fun (vs, rest) => (.array vs, rest)
      | '\x7b' :: rest =>
          match skipBlanks rest with
          | '\x7d' :: rest => some (.object [], rest)
          | _ => (fields budget rest).map fun (fs, rest) => (.object fs, rest)
      | other => number other

/-- The values of an array up to its end. -/
def items : Nat → List Char → Option (List Json × List Char)
  | 0, _ => none
  | budget + 1, cs => do
      let (v, rest) ← value budget cs
      match skipBlanks rest with
      | ',' :: rest => do
          let (vs, rest) ← items budget rest
          return (v :: vs, rest)
      | ']' :: rest => return ([v], rest)
      | _ => none

/-- The fields of an object up to its end. -/
def fields : Nat → List Char → Option (List (Option String × Json) × List Char)
  | 0, _ => none
  | budget + 1, cs =>
      match skipBlanks cs with
      | '"' :: rest => do
          let (name, rest) ← stringText rest
          match skipBlanks rest with
          | ':' :: rest => do
              let (v, rest) ← value budget rest
              match skipBlanks rest with
              | ',' :: rest => do
                  let (fs, rest) ← fields budget rest
                  return ((name, v) :: fs, rest)
              | '\x7d' :: rest => return ([(name, v)], rest)
              | _ => none
          | _ => none
      | _ => none

end

end Reading

/-- The document that a text holds. -/
def ofText? (text : String) : Option Json := do
  let cs := text.toList
  let (v, rest) ← Reading.value (2 * cs.length + 2) cs
  if (Reading.skipBlanks rest).isEmpty then return v else none

/-! ## Looking -/

def text? : Json → Option String
  | .string t => t
  | _ => none

def boolean? : Json → Option Bool
  | .boolean b => some b
  | _ => none

/-- A list whose elements can all be read. -/
def list? {α : Type} (read : Json → Option α) : Json → Option (List α)
  | .array vs => vs.mapM read
  | _ => none

/-- Null, or something that can be read. -/
def nullable? {α : Type} (read : Json → Option α) : Json → Option (Option α)
  | .null => some none
  | v => (read v).map some

/-- The fields of an object, whose names must all have a text. -/
def fields? : Json → Option (List (String × Json))
  | .object fields => fields.mapM fun f => f.1.map fun name => (name, f.2)
  | _ => none

/-- The value under a name, if there is one.  A name that stands twice is an
error. -/
def field? (fields : List (String × Json)) (name : String) : Option (Option Json) :=
  match fields.filter fun f => f.1 == name with
  | [] => some none
  | [f] => some (some f.2)
  | _ => none

/-- What a record holds under its field names.  A record is written as an object
or as the array of its fields in order; `none` stands for a missing field. -/
def record? (names : List String) : Json → Option (List (Option Json))
  | .array vs =>
      if vs.length ≤ names.length then
        some (vs.map some ++ List.replicate (names.length - vs.length) none)
      else none
  | j => do
      let fields ← j.fields?
      names.mapM (field? fields)

/-- A field that must be there. -/
def required? {α : Type} (read : Json → Option α) (field : Option Json) : Option α :=
  field.bind read

/-- A field that has a default. -/
def optional? {α : Type} (read : Json → Option α) (default : α) : Option Json → Option α
  | none => some default
  | some v => read v

mutual

/-- How deep arrays and objects are nested. -/
def nesting : Json → Nat
  | .array vs => nestingAll vs + 1
  | .object fs => nestingFields fs + 1
  | _ => 0

def nestingAll : List Json → Nat
  | [] => 0
  | v :: vs => max (nesting v) (nestingAll vs)

def nestingFields : List (Option String × Json) → Nat
  | [] => 0
  | (_, v) :: fs => max (nesting v) (nestingFields fs)

end

mutual

/-- Whether every string and name has a text and every number is in range. -/
def isWhole : Json → Bool
  | .string t => t.isSome
  | .number t => NumberRange.contains t
  | .array vs => areWhole vs
  | .object fs => fieldsAreWhole fs
  | _ => true

def areWhole : List Json → Bool
  | [] => true
  | v :: vs => isWhole v && areWhole vs

def fieldsAreWhole : List (Option String × Json) → Bool
  | [] => true
  | (name, v) :: fs => name.isSome && isWhole v && fieldsAreWhole fs

end

end Json

end RowGuard.Document
