import Asm8.Isa.Register
import Asm8.Text.Hex

/-!
Tokens of a source text.

A token is a kind and the place of its first character. Literals keep their quotes and may lack the
closing one; whether a literal is sound is for the encoder to say. The spelling of a token is the
piece of source that it stands for.
-/

namespace Asm8

/-- What a token is. A word may be a mnemonic, a directive, a register, a number or a symbol. -/
inductive Kind where
  | word (s : String)
  | label (name : String)
  | colon
  | comma
  | openBracket
  | closeBracket
  | character (raw : String)
  | string (raw : String)
  | comment (body : String)
  | newline
  deriving DecidableEq, Repr

/-- A token with its line and column, both counted from 1. -/
structure Token where
  kind : Kind
  line : Nat
  col : Nat
  deriving DecidableEq, Repr

namespace Kind

/-- The source characters of the token; a newline has none. -/
def spelling : Kind → String
  | word s => s
  | label name => name ++ ":"
  | colon => ":"
  | comma => ","
  | openBracket => "["
  | closeBracket => "]"
  | character raw => raw
  | string raw => raw
  | comment body => ";" ++ body
  | newline => ""

/-- The byte of a word of one or two hexadecimal digits. -/
def hex? : Kind → Option UInt8
  | word s => Text.hexByte? s
  | _ => none

/-- The register that a word names. -/
def register? : Kind → Option Register
  | word s => Register.ofName? s
  | _ => none

/-- Whether the token may follow a complete statement: the line ends or a comment begins. -/
def endsStatement : Kind → Bool
  | newline => true
  | comment _ => true
  | _ => false

end Kind

end Asm8
