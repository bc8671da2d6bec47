import Asm8.Isa.Shape
import Asm8.Source.Token

/-!
Classes of operand tokens.

A shape is spelled out as a sequence of classes, one per token. `offset` and `absolute` both accept
a symbol, and differ only in what the linker writes for it.
-/

namespace Asm8

/-- What may stand at one place among the operands. -/
inductive Class where
  | hex
  | register
  | openBracket
  | closeBracket
  | comma
  | offset
  | absolute
  deriving DecidableEq, Repr

namespace Class

/-- All classes in the order in which messages name them. -/
def all : List Class :=
  [hex, register, openBracket, closeBracket, comma, offset, absolute]

/-- Tokens that may stand for a symbol. Whether the name is allowed is decided later. -/
def isSymbol : Kind → Bool
  | .word _ | .label _ | .colon | .character _ | .string _ => true
  | _ => false

/-- Whether a token of this kind belongs to the class. -/
def accepts : Class → Kind → Bool
  | hex, k => k.hex?.isSome
  | register, k => k.register?.isSome
  | openBracket, k => k = .openBracket
  | closeBracket, k => k = .closeBracket
  | comma, k => k = .comma
  | offset, k => isSymbol k
  | absolute, k => isSymbol k

/-- How a message names the class. -/
def phrase : Class → String
  | hex => "hexadecimal number (range 00..FF)"
  | register => "register"
  | openBracket => "'['"
  | closeBracket => "']'"
  | comma => "comma"
  | offset => "symbol"
  | absolute => "symbol"

/-- The phrases joined as `a`, `a or b`, `a, b or c`. Neighbours with one phrase are named once. -/
def describe (cs : List Class) : String :=
  let phrases := (cs.map phrase).eraseReps
  match phrases.getLast? with
  | none => ""
  | some last =>
    match phrases.dropLast with
    | [] => last
    | init => ", ".intercalate init ++ " or " ++ last

end Class

/-- The classes of the operand tokens of a shape, from left to right. -/
def Shape.classes : Shape → List Class
  | implied => []
  | offset => [.offset]
  | address => [.hex]
  | atAddress => [.openBracket, .hex, .closeBracket]
  | register => [.register]
  | atRegister => [.openBracket, .register, .closeBracket]
  | registerConst => [.register, .comma, .hex]
  | registerRegister => [.register, .comma, .register]
  | registerAtAddress => [.register, .comma, .openBracket, .hex, .closeBracket]
  | registerAtRegister => [.register, .comma, .openBracket, .register, .closeBracket]
  | atRegisterRegister => [.openBracket, .register, .closeBracket, .comma, .register]
  | atAddressRegister => [.openBracket, .hex, .closeBracket, .comma, .register]
  | absolute => [.absolute]
  | atRegisterConst => [.openBracket, .register, .closeBracket, .comma, .hex]

end Asm8
