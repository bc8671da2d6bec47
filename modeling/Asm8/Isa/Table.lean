import Asm8.Isa.Group
import Asm8.Text.Hex
import Asm8.Text.Lines
import Asm8.Text.Upper

/-!
Instruction tables.

A table lists one variant of a mnemonic per row, as `entry;opcode;MNEMONIC shape`. The rows are all
that a table holds: the mnemonics are those of the rows in order of first appearance, and the group
of a mnemonic is the one whose signature is the sum over its rows. Reading refuses a table in which
some sum is no group's signature, and adds a row for `END` where the text has none.

    text ── lines ──▶ rows ── every mnemonic has a group? ──▶ rows, with END ──▶ table
-/

namespace Asm8

/-- The mnemonic that ends a program. -/
def endMnemonic : String := "END"

/-- One variant of a mnemonic: its opcode and its shape. -/
structure Row where
  entry : String
  mnemonic : String
  opcode : UInt8
  shape : Shape
  deriving DecidableEq, Repr

/-- Why a text is not an instruction table. -/
inductive TableError where
  | missingField (line : Nat)
  | badOpcode (line : Nat) (opcode : String)
  | unknownPattern (line : Nat) (pattern : String)
  | malformedSignature (mnemonic : String) (signature : UInt32)
  deriving DecidableEq, Repr

/-- The wording of a fault in a table. -/
def TableError.message : TableError → String
  | missingField line => s!"Instruction table line {line}: expected `entry;opcode;pattern`"
  | badOpcode line opcode => s!"Instruction table line {line}: cannot parse opcode `{opcode}`"
  | unknownPattern line pattern =>
    s!"Instruction table line {line}: unknown operand pattern `{pattern}`"
  | malformedSignature mnemonic signature =>
    s!"Malformed instruction table: `{mnemonic}` has unknown signature {signature}"

namespace Row

/-- The row that a table has for `END` when its text has none. -/
def ofEnd : Row := ⟨"", endMnemonic, 0x00, .implied⟩

/-- The row as a line of a table. -/
def text (r : Row) : String :=
  r.entry ++ ";" ++ Text.hexByte r.opcode ++ ";" ++ r.mnemonic ++ " " ++ r.shape.pattern

/-- Read a row from its three fields. The opcode is looked at before the mnemonic, and the mnemonic
before the shape. -/
def ofFields (line : Nat) (entry opcode pattern : List Char) : Except TableError Row :=
  let code := String.ofList (Text.trimChars opcode)
  let body := Text.trimChars pattern
  let mnemonic := body.takeWhile fun c => !Text.isBlank c
  let operands := body.dropWhile fun c => !Text.isBlank c
  match Text.hexNumber? code with
  | none => .error (.badOpcode line code)
  | some op =>
    if mnemonic = [] then .error (.missingField line)
    else
      match Shape.ofPattern? (String.ofList operands) with
      | none => .error (.unknownPattern line (String.ofList body))
      | some shape =>
        .ok ⟨String.ofList (Text.trimChars entry), String.ofList mnemonic, op, shape⟩

/-- Read a row from a line. Fields after the third are ignored. -/
def ofLine (line : Nat) (s : String) : Except TableError Row :=
  match Text.splitAt ';' s.toList with
  | entry :: opcode :: pattern :: _ => ofFields line entry opcode pattern
  | _ => .error (.missingField line)

end Row

/-- An instruction table: its rows in the order of the text. -/
structure Table where
  rows : List Row
  deriving DecidableEq, Repr

namespace Table

/-- The mnemonics in order of first appearance. -/
def mnemonics (t : Table) : List String :=
  (t.rows.map Row.mnemonic).eraseDups

/-- The rows of one mnemonic. -/
def variants (t : Table) (m : String) : List Row :=
  t.rows.filter (·.mnemonic = m)

/-- The sum of the bits of a mnemonic's shapes, row by row. -/
def signature (t : Table) (m : String) : UInt32 :=
  Shape.sumOfBits ((t.variants m).map Row.shape)

/-- The group of a mnemonic. Mnemonics are compared as they stand, upper and lower case apart. -/
def group? (t : Table) (m : String) : Option Group :=
  if t.rows.any (·.mnemonic = m) then Group.ofSignature? (t.signature m) else none

/-- The mnemonics with their groups, in order of first appearance. -/
def groups (t : Table) : List (String × Group) :=
  t.mnemonics.filterMap fun m => (t.group? m).map (m, ·)

/-- The opcode of a mnemonic's first row. It stands in the image until the operands are known. -/
def placeholder? (t : Table) (m : String) : Option UInt8 :=
  (t.rows.find? (·.mnemonic = m)).map Row.opcode

/-- The opcode of the first row with this mnemonic and this shape. -/
def opcode? (t : Table) (m : String) (s : Shape) : Option UInt8 :=
  (t.rows.find? fun r => r.mnemonic = m && r.shape = s).map Row.opcode

/-- The lines that hold a row, trimmed and in upper case, with their numbers. Blank lines and lines
that start with two slashes hold none. -/
def rowLines (text : String) : List (String × Nat) :=
  ((Text.lines text).zipIdx 1).filterMap fun (raw, number) =>
    let line := Text.trimChars raw.toList
    if line = [] ∨ line.take 2 = ['/', '/'] then none
    else some (Text.upper (String.ofList line), number)

/-- The first mnemonic whose signature belongs to no group. -/
def misfit? (t : Table) : Option String :=
  t.mnemonics.find? fun m => (Group.ofSignature? (t.signature m)).isNone

/-- The table with a row for `END`, added last if there is none. -/
def withEnd (t : Table) : Table :=
  if t.rows.any (·.mnemonic = endMnemonic) then t else ⟨t.rows ++ [Row.ofEnd]⟩

/-- Read an instruction table. -/
def read (text : String) : Except TableError Table := do
  let rows ← (rowLines text).mapM fun (line, number) => Row.ofLine number line
  let t : Table := ⟨rows⟩
  match t.misfit? with
  | some m => .error (.malformedSignature m (t.signature m))
  | none => .ok t.withEnd

end Table

end Asm8
