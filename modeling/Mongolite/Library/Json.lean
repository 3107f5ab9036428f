import Mathlib.Data.Nat.Notation
import Mathlib.Data.List.Basic

/-! # JSON texts

The values of JSON, and a reader of texts. A reader takes a value from the front
of a text and leaves the rest; what it takes is nested at most as deeply as its
fuel says, and a text is never nested more deeply than it is long.
-/

namespace Mongolite

/-- The values of JSON. A number is its literal, a string the code points of its characters and the
code units that `\u` stands for, and an object may have several members of one name. -/
inductive Json where
  | null
  | bool (b : Bool)
  | number (literal : List Char)
  | string (s : List ℕ)
  | array (values : List Json)
  | object (members : List (List ℕ × Json))

namespace Json

/-- Neither an array nor an object. -/
def isScalar : Json → Bool
  | .array _ => false
  | .object _ => false
  | _ => true

mutual

/-- How deep a value is; a scalar is a level of its own. -/
def levels : Json → ℕ
  | .array values => levelsOf values + 1
  | .object members => levelsOfMembers members + 1
  | _ => 1

def levelsOf : List Json → ℕ
  | [] => 0
  | v :: vs => max v.levels (levelsOf vs)

def levelsOfMembers : List (List ℕ × Json) → ℕ
  | [] => 0
  | m :: ms => max m.2.levels (levelsOfMembers ms)

end

abbrev Reader (α : Type) := List Char → Option (α × List Char)

def isJsonSpace (c : Char) : Bool := [' ', '\t', '\n', '\r'].contains c

def skipSpace (cs : List Char) : List Char := cs.dropWhile isJsonSpace

def hexValue (c : Char) : Option ℕ :=
  if c.isDigit then some (c.toNat - '0'.toNat)
  else if 'a' ≤ c ∧ c ≤ 'f' then some (c.toNat - 'a'.toNat + 10)
  else if 'A' ≤ c ∧ c ≤ 'F' then some (c.toNat - 'A'.toNat + 10)
  else none

/-- The character that a backslash and this one stand for. -/
def simpleEscape (c : Char) : Option ℕ :=
  if c = '"' ∨ c = '\\' ∨ c = '/' then some c.toNat
  else if c = 'b' then some 8
  else if c = 't' then some 9
  else if c = 'n' then some 10
  else if c = 'f' then some 12
  else if c = 'r' then some 13
  else none

def codeUnit (a b c d : Char) : Option ℕ :=
  (hexValue a).bind fun a => (hexValue b).bind fun b => (hexValue c).bind fun c =>
    (hexValue d).map fun d => 4096 * a + 256 * b + 16 * c + d

/-- The characters of a string after its opening quote, and the rest after its closing one. -/
def readString : List Char → Option (List ℕ × List Char)
  | [] => none
  | '"' :: rest => some ([], rest)
  | '\\' :: 'u' :: a :: b :: c :: d :: rest =>
    (codeUnit a b c d).bind fun u => (readString rest).map fun r => (u :: r.1, r.2)
  | '\\' :: e :: rest =>
    (simpleEscape e).bind fun u => (readString rest).map fun r => (u :: r.1, r.2)
  | c :: rest =>
    if c = '\\' ∨ c.toNat < 32 then none
    else (readString rest).map fun r => (c.toNat :: r.1, r.2)

def isTokenChar (c : Char) : Bool := c.isAlphanum || ['+', '-', '.'].contains c

/-- Digits, but no zero in front of another digit. -/
def isInteger (ds : List Char) : Bool := ds == ['0'] || (!ds.isEmpty && ds.head? != some '0')

/-- `e` or `E`, perhaps a sign, and digits; or nothing. -/
def isExponent : List Char → Bool
  | [] => true
  | e :: cs =>
    let ds := match cs with
      | '+' :: ds => ds
      | '-' :: ds => ds
      | ds => ds
    (e == 'e' || e == 'E') && !ds.isEmpty && ds.all Char.isDigit

/-- A point and digits, and an exponent; or only that. -/
def isFraction : List Char → Bool
  | '.' :: cs => !(cs.takeWhile Char.isDigit).isEmpty && isExponent (cs.dropWhile Char.isDigit)
  | cs => isExponent cs

def isNumber (token : List Char) : Bool :=
  let unsigned := match token with
    | '-' :: cs => cs
    | cs => cs
  isInteger (unsigned.takeWhile Char.isDigit) && isFraction (unsigned.dropWhile Char.isDigit)

def ofToken (token : List Char) : Option Json :=
  if token = ['n', 'u', 'l', 'l'] then some null
  else if token = ['t', 'r', 'u', 'e'] then some (bool true)
  else if token = ['f', 'a', 'l', 's', 'e'] then some (bool false)
  else if isNumber token then some (number token)
  else none

def readToken : Reader Json := fun cs =>
  (ofToken (cs.takeWhile isTokenChar)).map fun v => (v, cs.dropWhile isTokenChar)

/-- One item or more with commas between them, up to a closing character. -/
def readItems {α : Type} (item : Reader α) (close : Char) :
    ℕ → List Char → Option (List α × List Char)
  | 0, _ => none
  | fuel + 1, cs =>
    (item cs).bind fun r =>
      match skipSpace r.2 with
      | [] => none
      | c :: rest =>
        if c = ',' then (readItems item close fuel rest).map fun q => (r.1 :: q.1, q.2)
        else if c = close then some ([r.1], rest)
        else none

def readList {α : Type} (item : Reader α) (close : Char) : Reader (List α) := fun cs =>
  match skipSpace cs with
  | [] => none
  | c :: rest =>
    if c = close then some ([], rest) else readItems item close (rest.length + 1) (c :: rest)

def readMember (value : Reader Json) : Reader (List ℕ × Json) := fun cs =>
  match skipSpace cs with
  | [] => none
  | c :: cs' =>
    if c = '"' then
      (readString cs').bind fun name =>
        match skipSpace name.2 with
        | [] => none
        | c :: cs'' =>
          if c = ':' then (value cs'').map fun v => ((name.1, v.1), v.2) else none
    else none

def readValue : ℕ → Reader Json
  | 0 => fun _ => none
  | fuel + 1 => fun cs =>
    match skipSpace cs with
    | [] => none
    | c :: rest =>
      if c = '"' then (readString rest).map fun r => (string r.1, r.2)
      else if c = '[' then (readList (readValue fuel) ']' rest).map fun r => (array r.1, r.2)
      else if c = '{' then
        (readList (readMember (readValue fuel)) '}' rest).map fun r => (object r.1, r.2)
      else readToken (c :: rest)

/-- The value that a text stands for: one value, with white space around it. -/
def parse (cs : List Char) : Option Json :=
  (readValue cs.length cs).bind fun r => if skipSpace r.2 = [] then some r.1 else none

def hexChar (n : ℕ) : Char := if n < 10 then Char.ofNat (48 + n) else Char.ofNat (87 + n)

def escapeChar (c : Char) : List Char :=
  if c = '"' then ['\\', '"']
  else if c = '\\' then ['\\', '\\']
  else if c = '\x08' then ['\\', 'b']
  else if c = '\x0c' then ['\\', 'f']
  else if c = '\n' then ['\\', 'n']
  else if c = '\r' then ['\\', 'r']
  else if c = '\t' then ['\\', 't']
  else if c.toNat < 32 then ['\\', 'u', '0', '0', hexChar (c.toNat / 16), hexChar (c.toNat % 16)]
  else [c]

def escape (cs : List Char) : List Char := cs.flatMap escapeChar

end Json

example : ["123", "true", " null ", "[1, \"a\"]", "\x7b\"a\":[]\x7d", "-0.5e+10"].all
    (fun s => (Json.parse s.toList).isSome) = true := by decide +kernel

example : ["", "abc", "01", "[1,]", "\x7b\"a\"\x7d", "1 2", "'a'", "\"a", "-", "1."].all
    (fun s => (Json.parse s.toList).isNone) = true := by decide +kernel

end Mongolite
