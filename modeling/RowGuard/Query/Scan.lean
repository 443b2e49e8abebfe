import RowGuard.Query.Token

/-!
# Scanning

A source text is cut into tokens from the left, each as long as it can be;
blanks between tokens are dropped.  `munch` names the token that begins with a
given character together with the number of further characters it takes.
Where no token begins it tells how many of them the report covers.
-/

namespace RowGuard.Query

open Source (Span SyntaxError)

namespace Scan

def isBlank (c : Char) : Bool :=
  c = ' ' || c = '\t' || c = '\r' || c = '\n' || c = '\x0c'

def isLetter (c : Char) : Bool :=
  ('a' ≤ c && c ≤ 'z') || ('A' ≤ c && c ≤ 'Z') || c = '_'

def isDigit (c : Char) : Bool := '0' ≤ c && c ≤ '9'

def isWordStart (c : Char) : Bool := isLetter c || c = '$'

def isWordPart (c : Char) : Bool := isWordStart c || isDigit c

def isParameterPart (c : Char) : Bool := isLetter c || isDigit c

/-- The number of leading characters of a class. -/
def runLength (p : Char → Bool) (cs : List Char) : Nat :=
  (cs.takeWhile p).length

/-- The number of characters up to and including the quote that closes a
string.  A doubled quote belongs to the string. -/
def stringTail : List Char → Option Nat
  | [] => none
  | [c] => if c = '\'' then some 1 else none
  | c :: d :: rest =>
      if c = '\'' then
        if d = '\'' then (stringTail rest).map (· + 2) else some 1
      else (stringTail (d :: rest)).map (· + 1)

/-- The length of an exponent, zero where none begins. -/
def exponentLength : List Char → Nat
  | e :: rest =>
      if e = 'e' || e = 'E' then
        match rest with
        | s :: digits =>
            if s = '+' || s = '-' then
              let n := runLength isDigit digits
              if n = 0 then 0 else n + 2
            else
              let n := runLength isDigit rest
              if n = 0 then 0 else n + 1
        | [] => 0
      else 0
  | [] => 0

/-- The length of a fraction with its exponent, zero where none begins. -/
def fractionLength : List Char → Nat
  | c :: rest =>
      if c = '.' then
        let n := runLength isDigit rest
        if n = 0 then 0 else n + 1 + exponentLength (rest.drop n)
      else 0
  | [] => 0

/-- The number that decimal digits denote. -/
def decimalValue (digits : List Char) : Nat :=
  digits.foldl (fun n c => 10 * n + (c.toNat - '0'.toNat)) 0

/-- Indexes of positional parameters are words of 32 bits. -/
def indexLimit : Nat := 4294967296

/-- The token that begins with `c` and goes on into `cs`, with the number of
characters of `cs` that it takes. -/
def munch (c : Char) (cs : List Char) : Option Token × Nat :=
  let lexeme (n : Nat) : String := String.ofList (c :: cs.take n)
  if isWordStart c then
    let n := runLength isWordPart cs
    (some (.word (lexeme n)), n)
  else if isDigit c then
    let n := runLength isDigit cs
    let m := fractionLength (cs.drop n)
    if m = 0 then (some (.integer (lexeme n)), n)
    else (some (.decimal (lexeme (n + m))), n + m)
  else
    let next (d : Char) : Bool := cs.head? == some d
    match c with
    | '\'' =>
        match stringTail cs with
        | some n => (some (.string (lexeme n)), n)
        | none => (none, cs.length)
    | ':' =>
        if (cs.head?.map isLetter).getD false then
          let n := runLength isParameterPart cs
          (some (.named (String.ofList (cs.take n))), n)
        else (none, 0)
    | '?' =>
        let n := runLength isDigit cs
        let index := decimalValue (cs.take n)
        if n = 0 then (none, 0)
        else if index < indexLimit then (some (.positional index), n)
        else (none, n)
    | '=' => (some .equal, 0)
    | '<' =>
        if next '>' then (some .notEqual, 1)
        else if next '=' then (some .lessOrEqual, 1)
        else (some .less, 0)
    | '>' => if next '=' then (some .greaterOrEqual, 1) else (some .greater, 0)
    | '!' => if next '=' then (some .notEqual, 1) else (none, 0)
    | '+' => (some .plus, 0)
    | '-' => (some .minus, 0)
    | '*' => (some .star, 0)
    | '/' => (some .slash, 0)
    | '.' => (some .dot, 0)
    | ',' => (some .comma, 0)
    | '(' => (some .opening, 0)
    | ')' => (some .closing, 0)
    | _ => (none, 0)

/-- The number of bytes of some characters. -/
def byteLength (cs : List Char) : Nat :=
  cs.foldr (fun c n => c.utf8Size + n) 0

/-- The tokens of the characters that begin at byte `offset`, or the first run
of characters that is no token. -/
def scanFrom (offset : Nat) (cs : List Char) :
    Except (Span × String) (List Lexeme) :=
  match cs with
  | [] => .ok []
  | c :: rest =>
      if isBlank c then scanFrom (offset + c.utf8Size) rest
      else
        let found := munch c rest
        let lexeme := c :: rest.take found.2
        let stop := offset + byteLength lexeme
        match found.1 with
        | none => .error (⟨offset, stop⟩, String.ofList lexeme)
        | some token => do
            let tokens ← scanFrom stop (rest.drop found.2)
            return ⟨token, ⟨offset, stop⟩⟩ :: tokens
termination_by cs.length
decreasing_by
  · simp
  · simp only [List.length_cons, List.length_drop]; omega

end Scan

/-- The tokens of a source text. -/
def scan (source : String) : Except SyntaxError (List Lexeme) :=
  match Scan.scanFrom 0 source.toList with
  | .ok tokens => .ok tokens
  | .error (span, text) =>
      .error (SyntaxError.atSpan source span "a valid token" s!"'{text}'")

end RowGuard.Query
