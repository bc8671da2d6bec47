import Asm8.Text.Blank

/-!
Shapes of operands.

A shape says which operands follow a mnemonic: nothing, one operand, or two. `at` stands for an
operand in brackets, whose value is an address. Every shape but the first has a bit of its own, so
that a sum of bits tells which shapes a mnemonic offers. Sums are taken on 32 bits.
-/

namespace Asm8

/-- What stands after a mnemonic. -/
inductive Shape where
  | implied
  | offset
  | address
  | atAddress
  | register
  | atRegister
  | registerConst
  | registerRegister
  | registerAtAddress
  | registerAtRegister
  | atRegisterRegister
  | atAddressRegister
  | absolute
  | atRegisterConst
  deriving DecidableEq, Repr

namespace Shape

/-- All shapes in the order of their bits. -/
def all : List Shape :=
  [implied, offset, address, atAddress, register, atRegister, registerConst, registerRegister,
   registerAtAddress, registerAtRegister, atRegisterRegister, atAddressRegister, absolute,
   atRegisterConst]

/-- How an instruction table writes the shape; bars stand for brackets. -/
def pattern : Shape → String
  | implied => ""
  | offset => "OFFSET"
  | address => "ADDR"
  | atAddress => "|ADDR|"
  | register => "REG"
  | atRegister => "|REG|"
  | registerConst => "REG,CONST"
  | registerRegister => "REG,REG"
  | registerAtAddress => "REG,|ADDR|"
  | registerAtRegister => "REG,|REG|"
  | atRegisterRegister => "|REG|,REG"
  | atAddressRegister => "|ADDR|,REG"
  | absolute => "ABSOLUTE"
  | atRegisterConst => "|REG|,CONST"

/-- The weight of the shape in a signature. -/
def bit : Shape → UInt32
  | implied => 0
  | offset => 1
  | address => 2
  | atAddress => 4
  | register => 8
  | atRegister => 16
  | registerConst => 32
  | registerRegister => 64
  | registerAtAddress => 128
  | registerAtRegister => 256
  | atRegisterRegister => 512
  | atAddressRegister => 1024
  | absolute => 2048
  | atRegisterConst => 4096

/-- The sum of the bits of some shapes, a shape that comes twice counting twice. -/
def sumOfBits (ss : List Shape) : UInt32 :=
  (ss.map bit).foldr (· + ·) 0

/-- The shape that a pattern writes; blanks anywhere in the pattern do not count. -/
def ofPattern? (s : String) : Option Shape :=
  all.find? (·.pattern = Text.squeeze s)

end Shape

end Asm8
