import Asm8.Diagnostic
import Asm8.Operand.Candidates
import Asm8.Symbol

/-!
The state of the encoder.

Besides the image, the symbols and the line that wrote each cell, the encoder carries what it
expects next and two marks of the current line: whether a label stands on it, and whether a
mnemonic does.
-/

namespace Asm8

/-- An instruction whose placeholder opcode is written. -/
structure Instruction where
  mnemonic : String
  group : Group
  address : Nat
  deriving DecidableEq, Repr

/-- What the encoder expects next. -/
inductive Expectation where
  /-- a label, a statement, a comment or the end of the line -/
  | item
  /-- the address of `ORG` -/
  | origin
  /-- the literal of `DB` -/
  | datum
  /-- the next operand token of an instruction -/
  | operand (instruction : Instruction) (live : Candidates)
  /-- the end of a statement, after which the opcode of an instruction is settled -/
  | close (settles : Option (Instruction × Shape))
  /-- nothing more, since `END` is encoded -/
  | done
  deriving DecidableEq, Repr

/-- The first pass under way. -/
structure Encoder where
  line : Nat
  image : Image
  symbols : Symbols
  lines : Vector (Option Nat) 256
  labelled : Bool
  opened : Bool
  expects : Expectation
  deriving DecidableEq

/-- The outcome of the first pass: symbol operands still hold their placeholders. -/
structure Encoded where
  image : Image
  symbols : Symbols
  lines : Vector (Option Nat) 256
  deriving DecidableEq

/-- The diagnostic for a token that does not fit. The end of a line has no spelling to show. -/
def Token.unexpected (t : Token) (expected : String) : Diagnostic :=
  ⟨t.line, .unexpected expected (if t.kind = .newline then none else some t.kind.spelling)⟩

namespace Encoder

/-- Before the first token. -/
def start : Encoder where
  line := 1
  image := .empty
  symbols := .empty
  lines := .replicate 256 none
  labelled := false
  opened := false
  expects := .item

/-- Fail on the current line. -/
def fail {α : Type} (s : Encoder) (cause : Cause) : Except Diagnostic α :=
  .error ⟨s.line, cause⟩

/-- Write a byte at the cursor, and note the line that wrote it. -/
def write (s : Encoder) (b : UInt8) : Except Diagnostic Encoder :=
  match s.image.write b with
  | .error fault => s.fail (.write fault)
  | .ok (address, image) =>
    .ok { s with image, lines := s.lines.setIfInBounds address (some s.line) }

/-- Write bytes one after the other. -/
def writeAll (s : Encoder) (bs : List UInt8) : Except Diagnostic Encoder :=
  bs.foldlM write s

/-- Change what is expected next. -/
def await (s : Encoder) (e : Expectation) : Encoder :=
  { s with expects := e }

end Encoder

end Asm8
