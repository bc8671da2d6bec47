import Asm8.Diagnostic
import Asm8.Symbol

/-!
Linking: symbol operands get their bytes.

Every definition is paired with the references of its key, definitions in source order and the
references of each in source order. The pairs are served one after the other, until a relative
reference lies too far from its label. Each reference that is served is marked, and the first one
without a mark is reported at the end.
-/

namespace Asm8

namespace Link

/-- The distance that a relative reference encodes. It counts from the byte before the operand.
Addresses are words of 64 bits, and the distance is one with a sign. -/
def displacement (target reference : Nat) : Int :=
  (Int64.ofNat target - Int64.ofNat reference + 1).toInt

/-- A distance from -128 to 127 as a byte in two's complement. -/
def signedByte? (d : Int) : Option UInt8 :=
  if -128 ≤ d ∧ d ≤ 127 then some (UInt8.ofInt d) else none

/-- The operand byte of a reference to a label. An address counts modulo 256. -/
def operandByte? (label reference : Symbol) : Option UInt8 :=
  match reference.role with
  | .reference .relative => signedByte? (displacement label.address reference.address)
  | _ => some (UInt8.ofNat label.address)

/-- Every definition with every reference of its key and the place of the reference. -/
def tasks (ss : Symbols) : List (Symbol × Symbol × Nat) :=
  ss.definitions.flatMap fun label =>
    (ss.references.filter (·.1.key = label.key)).map fun r => (label, r)

/-- Serve pairs until one is out of reach, and mark the places of the references. The image keeps
what was served before. -/
def serve : List (Symbol × Symbol × Nat) → Image → List Bool →
    Image × Except Diagnostic (List Bool)
  | [], m, marks => (m, .ok marks)
  | (label, reference, place) :: rest, m, marks =>
    match operandByte? label reference with
    | some b => serve rest (m.patch reference.address b) (marks.set place true)
    | none =>
      (m, .error ⟨label.line,
        .unreachable label.key (displacement label.address reference.address)⟩)

/-- The first reference without a mark. -/
def unmarked? (ss : Symbols) (marks : List Bool) : Option Diagnostic :=
  (ss.references.find? fun r => !marks.getD r.2 false).map fun r =>
    ⟨r.1.line, .unresolved r.1.key⟩

end Link

/-- Fill in the symbol operands of an image. With a diagnostic comes the image as it was when the
fault was found. -/
def link (ss : Symbols) (m : Image) : Image × Option Diagnostic :=
  match Link.serve (Link.tasks ss) m (List.replicate ss.entries.length false) with
  | (m, .error d) => (m, some d)
  | (m, .ok marks) => (m, Link.unmarked? ss marks)

end Asm8
