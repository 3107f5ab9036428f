import Mongolite.Library.LittleEndian

/-! # Text as the C library reads it

White space, and the integers that `strtoi` reads with its default base: the
text says whether its digits are decimal, octal or hexadecimal, and what is not
all digits or does not fit a signed 32-bit integer is `NA`.
-/

namespace Mongolite

def digitValue (c : Char) : Option ℕ :=
  if c.isDigit then some (c.toNat - '0'.toNat)
  else if c.isLower then some (c.toNat - 'a'.toNat + 10)
  else if c.isUpper then some (c.toNat - 'A'.toNat + 10)
  else none

def pushDigit (base n : ℕ) (c : Char) : Option ℕ :=
  (digitValue c).bind fun d => if d < base then some (base * n + d) else none

def digitsInBase (base : ℕ) (cs : List Char) : Option ℕ :=
  if cs = [] then none else cs.foldlM (pushDigit base) 0

def chooseBase : List Char → ℕ × List Char
  | '0' :: 'x' :: cs => (16, cs)
  | '0' :: 'X' :: cs => (16, cs)
  | '0' :: cs => (8, '0' :: cs)
  | cs => (10, cs)

/-- The white space of the C locale, which `isspace` accepts. In a session with UTF-8 the `\s` of R
matches that of Unicode as well. -/
def isSpace (ch : Char) : Bool := [' ', '\t', '\n', '\x0b', '\x0c', '\r'].contains ch

/-- A sign, `true` for minus, and what follows it. -/
def takeSign : List Char → Bool × List Char
  | '-' :: cs => (true, cs)
  | '+' :: cs => (false, cs)
  | cs => (false, cs)

/-- An integer of R; the smallest `int` is `NA`, as is what does not fit. -/
def asInt (v : ℤ) : Option ℤ := if -2 ^ 31 < v ∧ v < 2 ^ 31 then some v else none

/-- `strtoi` with its default base; `none` is `NA`. -/
def strtoi (text : List Char) : Option ℤ :=
  let signed := takeSign (text.dropWhile isSpace)
  let based := chooseBase signed.2
  (digitsInBase based.1 based.2).bind fun n => asInt (if signed.1 then -(n : ℤ) else n)

theorem asInt_natCast (n : ℕ) : asInt n = if n < 2 ^ 31 then some (n : ℤ) else none := by
  unfold asInt
  split_ifs <;> first | rfl | omega

theorem strtoi_hex {cs : List Char} {n : ℕ} (h : digitsInBase 16 cs = some n) :
    strtoi ('0' :: 'x' :: cs) = if n < 2 ^ 31 then some (n : ℤ) else none := by
  have hspace : ('0' :: 'x' :: cs).dropWhile isSpace = '0' :: 'x' :: cs :=
    List.dropWhile_cons_of_neg (by decide)
  have hsign : takeSign ('0' :: 'x' :: cs) = (false, '0' :: 'x' :: cs) := rfl
  have hbase : chooseBase ('0' :: 'x' :: cs) = (16, cs) := rfl
  simp only [strtoi, hspace, hsign, hbase, h, Option.bind_some, Bool.false_eq_true, if_false,
    asInt_natCast]

example : ["0xff", "077", "123", "0xfg", "0x80000000"].map (fun s => strtoi s.toList) =
    [some 255, some 63, some 123, none, none] := by decide

end Mongolite
