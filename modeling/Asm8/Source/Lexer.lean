import Asm8.Source.Token

/-!
From a source text to tokens, character by character.

A line ends at a CR; an LF is nothing at all and takes no column. Between them the lexer is in one of
three places:

    plain      ── space, CR ──▶ the pending word is complete
               ── : , [ ] ──▶ a token each; a colon makes the pending word a label
               ── quote ──▶ literal
               ── ; ──▶ comment
               ── other ──▶ one character more of the pending word
    literal    ── the same quote, CR ──▶ plain
    comment    ── CR ──▶ plain

Cutting never fails. Every line ends in a newline token one column after its last character, except
that a last line without tokens leaves none.
-/

namespace Asm8

/-- Where the lexer is in a line. A literal and a comment come with the column of their first
character and with their text so far, the last character first. -/
inductive Lexer.Mode where
  | plain
  | literal (quote : Char) (start : Nat) (raw : List Char)
  | comment (start : Nat) (body : List Char)
  deriving DecidableEq

/-- The lexer between two characters. -/
structure Lexer where
  line : Nat := 1
  col : Nat := 1
  /-- The word that is not complete yet, the last character first. -/
  pending : List Char := []
  /-- The column of the first character of the pending word. -/
  start : Nat := 1
  mode : Lexer.Mode := .plain
  /-- The tokens so far, the last one first. -/
  tokens : List Token := []
  deriving DecidableEq

namespace Lexer

/-- One token more, on the present line. -/
def push (l : Lexer) (kind : Kind) (col : Nat) : Lexer :=
  { l with tokens := ⟨kind, l.line, col⟩ :: l.tokens }

/-- The next column. -/
def forth (l : Lexer) : Lexer :=
  { l with col := l.col + 1 }

/-- The pending word, if there is one, becomes a token. -/
def flush (l : Lexer) : Lexer :=
  if l.pending = [] then l
  else { l.push (.word (String.ofList l.pending.reverse)) l.start with pending := [] }

/-- The line ends. -/
def newline (l : Lexer) : Lexer :=
  { l.push .newline l.col with line := l.line + 1, col := 1 }

/-- A token of one character. -/
def single (l : Lexer) (kind : Kind) : Lexer :=
  (l.flush.push kind l.col).forth

/-- A colon makes the pending word a label. -/
def colon (l : Lexer) : Lexer :=
  if l.pending = [] then (l.push .colon l.col).forth
  else { l.push (.label (String.ofList l.pending.reverse)) l.start with pending := [] }.forth

/-- One character more of the pending word, which may start here. -/
def extend (l : Lexer) (c : Char) : Lexer :=
  { l with
    start := if l.pending = [] then l.col else l.start
    pending := c :: l.pending }.forth

/-- The token of a literal, whose text has its last character first. -/
def literal (quote : Char) (raw : List Char) : Kind :=
  if quote = '\'' then .character (String.ofList raw.reverse)
  else .string (String.ofList raw.reverse)

/-- A character among words and marks. -/
def plain (l : Lexer) (c : Char) : Lexer :=
  match c with
  | '\r' => l.flush.newline
  | '\n' => l
  | ' ' => l.flush.forth
  | ':' => l.colon
  | ',' => l.single .comma
  | '[' => l.single .openBracket
  | ']' => l.single .closeBracket
  | '\'' | '"' => { l.flush with mode := .literal c l.col [c] }.forth
  | ';' => { l.flush with mode := .comment l.col [] }.forth
  | _ => l.extend c

/-- A character in a literal: the quote closes it, and so does the end of the line. -/
def inLiteral (l : Lexer) (quote : Char) (start : Nat) (raw : List Char) (c : Char) : Lexer :=
  match c with
  | '\r' => { l.push (literal quote raw) start with mode := .plain }.newline
  | '\n' => l
  | _ =>
    if c = quote then { l.push (literal quote (c :: raw)) start with mode := .plain }.forth
    else { l with mode := .literal quote start (c :: raw) }.forth

/-- A character in a comment, which leaves the CR to what comes after it. -/
def inComment (l : Lexer) (start : Nat) (body : List Char) (c : Char) : Lexer :=
  match c with
  | '\r' =>
    { l.push (.comment (String.ofList body.reverse)) start with mode := .plain }.plain c
  | '\n' => l
  | _ => { l with mode := .comment start (c :: body) }.forth

/-- The lexer after one character. -/
def step (l : Lexer) (c : Char) : Lexer :=
  match l.mode with
  | .plain => l.plain c
  | .literal quote start raw => l.inLiteral quote start raw c
  | .comment start body => l.inComment start body c

/-- The text ends, and with it a literal or a comment, and a pending word. -/
def close (l : Lexer) : Lexer :=
  match l.mode with
  | .plain => l.flush
  | .literal quote start raw => { l.push (literal quote raw) start with mode := .plain }.flush
  | .comment start body =>
    { l.push (.comment (String.ofList body.reverse)) start with mode := .plain }.flush

/-- The tokens at the end of the text, the last line with its newline. -/
def finish (l : Lexer) : List Token :=
  match l.close.tokens with
  | [] => []
  | last :: ts =>
    if last.kind = .newline then (last :: ts).reverse
    else (last :: ts).reverse ++ [⟨.newline, l.line, l.col⟩]

/-- The lexer after some characters. -/
def run (l : Lexer) (cs : List Char) : Lexer :=
  cs.foldl step l

end Lexer

/-- The tokens of a source text. -/
def tokenize (source : String) : List Token :=
  (Lexer.run {} source.toList).finish

end Asm8
