import Asm8.Encoder.State
import Asm8.Isa.Table
import Asm8.Source.Name

/-!
The encoder: one token after the other.

    item ── ORG ──▶ origin ── number ──▶ close ──┐
    item ── DB ───▶ datum ── literal ──▶ close ──┤ newline or comment
    item ── mnemonic ──▶ operand ... ──▶ close ──┴──▶ item
    item ── label, comment, newline ──▶ item
    item ── END ──▶ done

Bytes are written as soon as their token is read: the opcode of a mnemonic's first row, then the
operands. When a statement is closed and the mnemonic has several shapes, the opcode is replaced by
that of the shape found. The first fault ends the run, and after `END` nothing is looked at.
-/

namespace Asm8.Encoder

/-! ### Items -/

/-- A label names the place of the cursor. -/
def label (s : Encoder) (name : String) : Except Diagnostic Encoder :=
  if Text.isHexByte name then s.fail (.hexLabel name)
  else
    match Name.refusedInLabel? name with
    | some c => s.fail (.refusedCharacter c)
    | none =>
      if s.symbols.isDefined name then s.fail (.duplicateLabel (Text.upper name))
      else if s.labelled then s.fail .secondLabel
      else
        .ok { s with symbols := s.symbols.define name s.image.cursor s.line, labelled := true }

/-- What to expect of an instruction: more operand tokens, or the end of the statement once a shape
is complete. -/
def operandsOf (instruction : Instruction) (live : Candidates) : Expectation :=
  match live.complete? with
  | some shape => .close (some (instruction, shape))
  | none => .operand instruction live

/-- A mnemonic writes the opcode of its first row. -/
def mnemonic (t : Table) (s : Encoder) (m : String) : Except Diagnostic Encoder :=
  match t.group? m with
  | none => s.fail (.unexpected "mnemonic" (some m))
  | some g =>
    if s.opened then s.fail .secondMnemonic
    else
      match t.placeholder? m with
      | none => s.fail (.missingVariant m)
      | some opcode => do
        let s' ← s.write opcode
        let live := Candidates.ofGroup g
        .ok { s' with opened := true, expects := operandsOf ⟨m, g, s.image.cursor⟩ live }

/-- `END` writes its opcode and ends the run. -/
def endProgram (t : Table) (s : Encoder) : Except Diagnostic Encoder := do
  let s ← s.write ((t.placeholder? endMnemonic).getD 0x00)
  .ok (s.await .done)

/-- A word at the start of a statement. -/
def word (t : Table) (s : Encoder) (w : String) : Except Diagnostic Encoder :=
  if w = "ORG" then .ok (s.await .origin)
  else if w = "DB" then .ok (s.await .datum)
  else if w = endMnemonic then endProgram t s
  else mnemonic t s w

/-- A token where an item may start. -/
def item (t : Table) (s : Encoder) (tok : Token) : Except Diagnostic Encoder :=
  match tok.kind with
  | .comment _ => .ok s
  | .newline => .ok { s with labelled := false, opened := false }
  | .colon => s.fail (if s.labelled then .strayColonAfterLabel else .strayColon)
  | .label name => s.label name
  | .word w => word t s w
  | _ => .error (tok.unexpected "mnemonic")

/-! ### Directives -/

/-- The address of `ORG` moves the cursor. -/
def origin (s : Encoder) (tok : Token) : Except Diagnostic Encoder :=
  match tok.kind.hex? with
  | none => .error (tok.unexpected Class.hex.phrase)
  | some address => .ok { s with image := s.image.org address, expects := .close none }

/-- The character of a literal is written before its closing quote is looked at. -/
def characterDatum (s : Encoder) (raw : String) : Except Diagnostic Encoder :=
  match Literal.character raw with
  | .error fault => s.fail (.character fault)
  | .ok (b, close) => do
    let s ← s.write b
    if close = '\'' then .ok s else s.fail (.character (.unterminated close))

/-- The characters of a string are written if all of them are sound. -/
def stringDatum (s : Encoder) (raw : String) : Except Diagnostic Encoder :=
  match Literal.string raw with
  | .error fault => s.fail (.string fault)
  | .ok bs => s.writeAll bs

/-- What `DB` asks for. -/
def datumPhrase : String :=
  "hexadecimal number (range 00..FF), a quote (') or double quote (\")"

/-- The literal of `DB` is written at the cursor. -/
def datum (s : Encoder) (tok : Token) : Except Diagnostic Encoder := do
  let s ←
    match tok.kind with
    | .character raw => s.characterDatum raw
    | .string raw => s.stringDatum raw
    | kind =>
      match kind.hex? with
      | some b => s.write b
      | none => .error (tok.unexpected datumPhrase)
  .ok (s.await (.close none))

/-! ### Operands -/

/-- A symbol operand holds the low byte of its own address until it is linked. -/
def symbol (s : Encoder) (name : String) (mode : Mode) : Except Diagnostic Encoder :=
  if Name.isUpperHex name then s.fail (.hexLabel name)
  else
    match Name.refusedInSymbol? name with
    | some c => s.fail (.refusedCharacter c)
    | none => do
      let s' ← s.write (UInt8.ofNat s.image.cursor)
      .ok { s' with symbols := s'.symbols.refer name mode s.image.cursor s.line }

/-- The byte of an operand token, if its class has one, is written at the cursor. -/
def operandByte (s : Encoder) (k : Class) (kind : Kind) : Except Diagnostic Encoder :=
  match k with
  | .hex =>
    match kind.hex? with
    | some b => s.write b
    | none => .ok s
  | .register =>
    match kind.register? with
    | some r => s.write r.code
    | none => .ok s
  | .offset => s.symbol kind.spelling .relative
  | .absolute => s.symbol kind.spelling .absolute
  | .openBracket | .closeBracket | .comma => .ok s

/-- An operand token belongs to the first class that is expected and accepts it. -/
def operand (s : Encoder) (instruction : Instruction) (live : Candidates) (tok : Token) :
    Except Diagnostic Encoder :=
  match live.expected.find? (·.accepts tok.kind) with
  | none => .error (tok.unexpected (Class.describe live.expected))
  | some k => do
    let s ← s.operandByte k tok.kind
    .ok (s.await (operandsOf instruction (live.advance k)))

/-! ### The end of a statement -/

/-- Put the opcode of the shape found in place of the placeholder. -/
def settle (t : Table) (s : Encoder) : Option (Instruction × Shape) → Except Diagnostic Encoder
  | none => .ok s
  | some (i, shape) =>
    if i.group.hasVariants then
      match t.opcode? i.mnemonic shape with
      | none => s.fail (.missingVariant (i.mnemonic ++ " " ++ shape.pattern))
      | some opcode => .ok { s with image := s.image.patch i.address opcode }
    else .ok s

/-- A statement is followed by the end of the line or by a comment. A missing variant is reported on
the line of the statement, not on that of the token after it. -/
def close (t : Table) (s : Encoder) (settles : Option (Instruction × Shape)) (tok : Token) :
    Except Diagnostic Encoder :=
  if tok.kind.endsStatement then do
    let s ← settle t s settles
    item t { s with line := tok.line, expects := .item } tok
  else .error (tok.unexpected "a comment")

/-! ### Runs -/

/-- Take one token. -/
def step (t : Table) (s : Encoder) (tok : Token) : Except Diagnostic Encoder :=
  match s.expects with
  | .item => item t { s with line := tok.line } tok
  | .origin => origin { s with line := tok.line } tok
  | .datum => datum { s with line := tok.line } tok
  | .operand instruction live => operand { s with line := tok.line } instruction live tok
  | .close settles => close t s settles tok
  | .done => .ok s

/-- Take all tokens in order. -/
def run (t : Table) (s : Encoder) (toks : List Token) : Except Diagnostic Encoder :=
  toks.foldlM (step t) s

@[simp] theorem run_nil (t : Table) (s : Encoder) : run t s [] = .ok s := rfl

@[simp] theorem run_cons (t : Table) (s : Encoder) (tok : Token) (toks : List Token) :
    run t s (tok :: toks) = (step t s tok).bind fun s' => run t s' toks := rfl

/-- A run over two lists of tokens is a run over the first, then over the second. -/
theorem run_append (t : Table) (s : Encoder) (xs ys : List Token) :
    run t s (xs ++ ys) = (run t s xs).bind fun s' => run t s' ys := by
  simp only [run, List.foldlM_append]
  rfl

/-- After the last token the program must have ended. If it has not, what is missing shows when the
line is taken to end here. -/
def finish (t : Table) (s : Encoder) : Except Diagnostic Encoded :=
  match s.expects with
  | .done => .ok ⟨s.image, s.symbols, s.lines⟩
  | _ => do
    let s ← step t s ⟨.newline, s.line, 0⟩
    s.fail .missingEnd

end Asm8.Encoder

namespace Asm8

/-- The first pass: tokens to an image with placeholders. -/
def encode (t : Table) (toks : List Token) : Except Diagnostic Encoded := do
  let s ← Encoder.run t .start toks
  Encoder.finish t s

end Asm8
