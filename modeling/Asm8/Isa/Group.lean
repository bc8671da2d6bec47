import Asm8.Isa.Shape

/-!
Groups of shapes.

All rows of a mnemonic together offer a set of shapes, and only fourteen such sets are allowed: the
groups. A group is found from its signature, the sum of the bits of its shapes.
-/

namespace Asm8

/-- A set of shapes that one mnemonic may offer. -/
inductive Group where
  | implied
  | address
  | register
  | offset
  | compare
  | move
  | arith
  | registerOrAtRegister
  | absolute
  | registerOrAtAddress
  | atAddress
  | atRegister
  | atRegisterConst
  | registerRegister
  deriving DecidableEq, Repr

namespace Group

/-- All groups in the order of their numbers. -/
def all : List Group :=
  [implied, address, register, offset, compare, move, arith, registerOrAtRegister, absolute,
   registerOrAtAddress, atAddress, atRegister, atRegisterConst, registerRegister]

/-- The number of the group. -/
def id : Group → Nat
  | implied => 0
  | address => 1
  | register => 2
  | offset => 3
  | compare => 4
  | move => 5
  | arith => 6
  | registerOrAtRegister => 7
  | absolute => 8
  | registerOrAtAddress => 9
  | atAddress => 10
  | atRegister => 11
  | atRegisterConst => 12
  | registerRegister => 13

/-- The shapes of the group in the order of their bits. -/
def shapes : Group → List Shape
  | implied => [.implied]
  | address => [.address]
  | register => [.register]
  | offset => [.offset]
  | compare => [.registerConst, .registerRegister, .registerAtAddress]
  | move =>
    [.registerConst, .registerRegister, .registerAtAddress, .registerAtRegister,
     .atRegisterRegister, .atAddressRegister]
  | arith => [.registerConst, .registerRegister]
  | registerOrAtRegister => [.register, .atRegister]
  | absolute => [.absolute]
  | registerOrAtAddress => [.atAddress, .register]
  | atAddress => [.atAddress]
  | atRegister => [.atRegister]
  | atRegisterConst => [.atRegisterConst]
  | registerRegister => [.registerRegister]

/-- The sum of the bits of the shapes. -/
def signature (g : Group) : UInt32 :=
  Shape.sumOfBits g.shapes

/-- The group of a number. -/
def ofId? (n : Nat) : Option Group :=
  all.find? (·.id = n)

/-- The group of a signature. -/
def ofSignature? (n : UInt32) : Option Group :=
  all.find? (·.signature = n)

/-- Whether the opcode depends on the operands that stand in the source. -/
def hasVariants (g : Group) : Bool :=
  1 < g.shapes.length

end Group

end Asm8
