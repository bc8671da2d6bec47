/-!
Hexadecimal numbers.

Digits are read in either case and written in upper case. A *hex byte* in a source text is one or
two digits; an opcode field of a table may have any number of digits, as long as the value fits in
a byte.
-/

namespace Asm8.Text

/-- The value of a hexadecimal digit of either case. -/
def hexDigit? (c : Char) : Option Nat :=
  if '0' ≤ c ∧ c ≤ '9' then some (c.toNat - '0'.toNat)
  else if 'A' ≤ c ∧ c ≤ 'F' then some (c.toNat - 'A'.toNat + 10)
  else if 'a' ≤ c ∧ c ≤ 'f' then some (c.toNat - 'a'.toNat + 10)
  else none

/-- Whether the character is a hexadecimal digit of either case. -/
def isHexDigit (c : Char) : Bool :=
  (hexDigit? c).isSome

/-- The number that the digits write, most significant first. -/
def hexValue (cs : List Char) : Nat :=
  cs.foldl (fun n c => 16 * n + (hexDigit? c).getD 0) 0

/-- One or two hexadecimal digits and nothing else. -/
def isHexByte (s : String) : Bool :=
  (s.length = 1 || s.length = 2) && s.toList.all isHexDigit

/-- The byte that one or two hexadecimal digits write. -/
def hexByte? (s : String) : Option UInt8 :=
  if isHexByte s then some (UInt8.ofNat (hexValue s.toList)) else none

/-- The digits after an optional plus sign. -/
def dropPlus : List Char → List Char
  | '+' :: cs => cs
  | cs => cs

/-- A byte written with any number of digits, leading zeros and a plus sign included. -/
def hexNumber? (s : String) : Option UInt8 :=
  let ds := dropPlus s.toList
  if ds ≠ [] ∧ ds.all isHexDigit ∧ hexValue ds < 256 then some (UInt8.ofNat (hexValue ds)) else none

/-- The digit of a value below 16. -/
def hexChar (n : Nat) : Char :=
  if n < 10 then Char.ofNat ('0'.toNat + n) else Char.ofNat ('A'.toNat + (n - 10))

/-- The digits of a number, most significant first and without leading zeros. -/
def hexDigits (n : Nat) : List Char :=
  if n < 16 then [hexChar n] else hexDigits (n / 16) ++ [hexChar (n % 16)]

/-- The text filled up on the left to a least width. -/
def padLeft (width : Nat) (fill : Char) (cs : List Char) : List Char :=
  List.replicate (width - cs.length) fill ++ cs

/-- The text filled up with spaces on the right to a least width. -/
def padRight (width : Nat) (cs : List Char) : List Char :=
  cs ++ List.replicate (width - cs.length) ' '

/-- A number with at least two upper-case digits. -/
def hex (n : Nat) : String :=
  String.ofList (padLeft 2 '0' (hexDigits n))

/-- A byte as two upper-case digits. -/
def hexByte (b : UInt8) : String :=
  hex b.toNat

end Asm8.Text
