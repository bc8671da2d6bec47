/-!
Registers of the machine.

Four general registers and the stack pointer. An operand byte names a register by its code.
-/

namespace Asm8

/-- A register of the machine. -/
inductive Register where
  | al | bl | cl | dl | sp
  deriving DecidableEq, Repr

namespace Register

/-- All registers in the order of their codes. -/
def all : List Register := [al, bl, cl, dl, sp]

/-- The name in a source text. -/
def name : Register → String
  | al => "AL"
  | bl => "BL"
  | cl => "CL"
  | dl => "DL"
  | sp => "SP"

/-- The operand byte. -/
def code : Register → UInt8
  | al => 0
  | bl => 1
  | cl => 2
  | dl => 3
  | sp => 4

/-- The register of a name; names are read in upper case only. -/
def ofName? (s : String) : Option Register :=
  all.find? (·.name = s)

/-- The register of a code. -/
def ofCode? (n : Nat) : Option Register :=
  all.find? (·.code.toNat = n)

end Register

end Asm8
