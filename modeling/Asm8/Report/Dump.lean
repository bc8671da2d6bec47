import Asm8.Report.Listing

/-!
Dumps: everything about an assembled program for the terminal.

A dump is the coloured listing, the labels with the operands that name them, and the memory as
sixteen rows of sixteen bytes.
-/

namespace Asm8

namespace Image

/-- A byte as a visible character, or a point. -/
def glyph (b : UInt8) : Char :=
  if 0x21 ≤ b.toNat ∧ b.toNat ≤ 0x7E then Char.ofNat b.toNat else '.'

/-- The column numbers over the sixteen columns. -/
def dumpHead : String :=
  "     " ++ String.join ((List.range 16).map fun n =>
    " " ++ String.ofList (Text.padLeft 2 ' ' (Text.hexDigits n)))

/-- Sixteen bytes: their address, their digits and their characters. -/
def dumpRow (address : Nat) (bs : List UInt8) : String :=
  "  " ++ Text.hex address ++ " " ++ String.join (bs.map (" " ++ Text.hexByte ·)) ++ "   " ++
    String.ofList (bs.map glyph)

/-- The memory in rows, each ended by a newline. -/
def dump (m : Image) : String :=
  dumpHead ++ "\n" ++ String.join ((List.range 16).map fun n =>
    dumpRow (16 * n) ((m.ram.drop (16 * n)).take 16) ++ "\n")

end Image

namespace Symbols

/-- A reference in the label summary: how it is linked, and where its operand stands. -/
def useText (r : Symbol) : String :=
  (if r.role = .reference .absolute then "@" else "~") ++ Text.hex r.address

/-- A label with the references of its key. -/
def summaryLine (ss : Symbols) (label : Symbol) : String :=
  let uses := (ss.references.filter (·.1.key = label.key)).map fun r => useText r.1
  "  " ++ Style.green.paint (Text.hex label.address ++ " " ++ label.name ++ ":") ++ " " ++
    " ".intercalate uses

/-- A line for every label. -/
def summary (ss : Symbols) : List String :=
  ss.definitions.map ss.summaryLine

end Symbols

namespace Assembly

/-- The line between the parts of a dump. -/
def rule : String :=
  "-----------------+-----------------------------------------------------"

/-- The dump of an assembled program. -/
def dump (a : Assembly) : String :=
  let rows := [rule] ++ a.listing true ++ [rule] ++ a.symbols.summary ++ [rule]
  String.join (rows.map (· ++ "\n")) ++ a.image.dump

end Assembly

end Asm8
