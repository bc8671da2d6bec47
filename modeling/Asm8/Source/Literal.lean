/-!
Literals of data statements.

A character literal is one printable character between single quotes, a string literal one or more
between double quotes. Printable characters are U+0020 to U+007F, so each is one byte. Tokens may
hold literals that were never closed; reading them says what is wrong.
-/

namespace Asm8

/-- What is wrong with a character literal. -/
inductive CharacterFault where
  | length (raw : String)
  | unprintable (raw : String)
  | unterminated (found : Char)
  deriving DecidableEq, Repr

/-- What is wrong with a string literal. -/
inductive StringFault where
  | empty
  | unterminated (found : Char)
  | unprintable (found : Char)
  deriving DecidableEq, Repr

/-- The wording of a fault in a character literal. -/
def CharacterFault.message : CharacterFault → String
  | length raw => s!"Expected character enclosed in ', got {raw}"
  | unprintable raw => s!"Invalid character '{raw}'"
  | unterminated found => s!"Expected closing ', got '{found}'"

/-- The wording of a fault in a string literal. -/
def StringFault.message : StringFault → String
  | empty => "Empty strings not allowed"
  | unterminated found => s!"Expected closing \", got '{found}'"
  | unprintable found => s!"Invalid character in string, found '{found}'"

namespace Literal

/-- The characters that a literal may hold. -/
def isPrintable (c : Char) : Bool :=
  0x20 ≤ c.toNat && c.toNat ≤ 0x7F

/-- The byte of a printable character. -/
def byte (c : Char) : UInt8 :=
  UInt8.ofNat c.toNat

/-- The byte of a character literal, with the character that stands where the quote should close. -/
def character (raw : String) : Except CharacterFault (UInt8 × Char) :=
  match raw.toList with
  | [_, c, close] =>
    if isPrintable c then .ok (byte c, close) else .error (.unprintable raw)
  | _ => .error (.length raw)

/-- The bytes of a string literal. -/
def string (raw : String) : Except StringFault (List UInt8) :=
  let cs := raw.toList
  let last := cs.getLast?.getD '"'
  if cs = ['"', '"'] then .error .empty
  else if cs.length < 2 ∨ last ≠ '"' then .error (.unterminated last)
  else
    match cs.find? fun c => !isPrintable c with
    | some c => .error (.unprintable c)
    | none => .ok ((cs.drop 1).dropLast.map byte)

end Literal

end Asm8
