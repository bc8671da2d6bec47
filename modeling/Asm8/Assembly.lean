import Asm8.Encoder.Step
import Asm8.Link
import Asm8.Source.Lexer

/-!
Assembly: both passes.

    source ── tokenize ──▶ tokens ── encode ──▶ image with placeholders ── link ──▶ image
-/

namespace Asm8

/-- An assembled program. -/
structure Assembly where
  tokens : List Token
  image : Image
  symbols : Symbols
  lines : Vector (Option Nat) 256
  deriving DecidableEq

/-- Encode and link a list of tokens. -/
def assembleTokens (t : Table) (toks : List Token) : Except Diagnostic Assembly := do
  let e ← encode t toks
  match link e.symbols e.image with
  | (_, some d) => .error d
  | (image, none) => .ok ⟨toks, image, e.symbols, e.lines⟩

/-- Assemble a source text. -/
def assemble (t : Table) (source : String) : Except Diagnostic Assembly :=
  assembleTokens t (tokenize source)

end Asm8
