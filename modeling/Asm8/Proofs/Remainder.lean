import Asm8.Proofs.Assembled

/-!
What comes after `END` or after the first fault is not looked at.

More lines behind a source text leave its tokens as they are, apart from a newline that may be missing
at its end. The encoder takes the tokens one by one: a fault is final, and so is `END`. After a newline
no statement is left open, so that a text that is through without either of them lacks `END`.

    source            t₁ ... tₙ newline?
    source CR more    t₁ ... tₙ newline   u₁ u₂ ...
                      └ fault or END: the outcome is decided here
-/

namespace Asm8

/-! ### Lines of two texts -/

namespace Lexer

/-- A line end between two texts keeps the lines of both. -/
theorem sourceLines_append (source more : String) :
    sourceLines (source ++ "\r" ++ more) = sourceLines source ++ sourceLines more := by
  simp only [sourceLines, String.toList_append, List.filter_append]
  rw [List.append_assoc]
  exact Text.splitAt_append '\r' _ _

/-- The tokens of consecutive lines, each of them with its newline. -/
def closedLines (line : Nat) : List (List Char) → List Token
  | [] => []
  | cs :: rest => lineTokens line 1 cs ++ newlineAfter line cs :: closedLines (line + 1) rest

/-- Before further lines every line has its newline. -/
theorem tokensOfLines_append {more : List (List Char)} (hne : more ≠ []) :
    ∀ (line : Nat) (lines : List (List Char)),
      tokensOfLines line (lines ++ more) =
        closedLines line lines ++ tokensOfLines (line + lines.length) more
  | _, [] => rfl
  | line, cs :: lines => by
    have hrest : lines ++ more ≠ [] := by simp [hne]
    rw [List.cons_append, tokensOfLines_cons line cs _ (.inr hrest),
      tokensOfLines_append hne (line + 1) lines, closedLines, List.length_cons,
      Nat.add_right_comm line 1, List.append_assoc]
    rfl

/-- Only the newline of the last line may be missing. -/
theorem tokensOfLines_prefix : ∀ (line : Nat) (lines : List (List Char)),
    tokensOfLines line lines <+: closedLines line lines
  | _, [] => List.prefix_rfl
  | line, cs :: lines => by
    by_cases h : lineTokens line 1 cs ≠ [] ∨ lines ≠ []
    · rw [tokensOfLines_cons line cs lines h, closedLines, List.prefix_append_right_inj,
        List.cons_prefix_cons]
      exact ⟨rfl, tokensOfLines_prefix (line + 1) lines⟩
    · simp only [not_or, not_not] at h
      rw [h.2, tokensOfLines, h.1]
      exact List.nil_prefix

/-- The last token of a text, if there is one, is a newline. -/
theorem tokensOfLines_getLast : ∀ (line : Nat) (lines : List (List Char)),
    ∀ tok ∈ (tokensOfLines line lines).getLast?, tok.kind = .newline
  | _, [] => by simp [tokensOfLines]
  | line, cs :: lines => by
    by_cases h : lineTokens line 1 cs ≠ [] ∨ lines ≠ []
    · intro tok htok
      rw [tokensOfLines_cons line cs lines h, List.getLast?_append, List.getLast?_cons] at htok
      cases hlast : (tokensOfLines (line + 1) lines).getLast? with
      | none =>
        rw [hlast] at htok
        cases htok
        rfl
      | some last =>
        rw [hlast] at htok
        cases htok
        exact tokensOfLines_getLast (line + 1) lines last hlast
    · simp only [not_or, not_not] at h
      rw [h.2, tokensOfLines, h.1]
      simp

end Lexer

/-- More lines leave the tokens of a text in front. -/
theorem tokenize_prefix (source more : String) :
    tokenize source <+: tokenize (source ++ "\r" ++ more) := by
  have hne : Lexer.sourceLines more ≠ [] := Text.splitAt_ne_nil '\r' _
  rw [tokenize_eq_tokensOfLines, tokenize_eq_tokensOfLines, Lexer.sourceLines_append,
    Lexer.tokensOfLines_append hne]
  exact (Lexer.tokensOfLines_prefix 1 _).trans (List.prefix_append _ _)

/-! ### Tokens that decide -/

namespace Encoder

variable {t : Table}

/-- Where a token that ends statements is not expected, it is a fault on its line. -/
theorem operand_of_endsStatement {s : Encoder} {i : Instruction} {live : Candidates} {tok : Token}
    (h : tok.kind.endsStatement) :
    operand s i live tok = .error (tok.unexpected (Class.describe live.expected)) := by
  have hnone : live.expected.find? (·.accepts tok.kind) = none := by
    rw [List.find?_eq_none]
    intro k _
    rw [Class.not_accepts_of_endsStatement h]
    decide
  rw [operand, hnone]

/-- No statement is left open behind a newline. -/
theorem expects_of_newline {s s' : Encoder} {tok : Token} (hnl : tok.kind = .newline)
    (h : step t s tok = .ok s') : s'.expects = .item ∨ s'.expects = .done := by
  cases he : s.expects with
  | item =>
    rw [step_item he, item, hnl] at h
    cases h
    exact .inl he
  | origin =>
    rw [step_origin he, origin, hnl] at h
    cases h
  | datum =>
    rw [step_datum he] at h
    obtain ⟨bs, hbs⟩ := datum?_isSome h
    rw [hnl] at hbs
    cases hbs
  | operand instruction live =>
    rw [step_operand he, operand_of_endsStatement (by rw [hnl]; rfl)] at h
    cases h
  | close settles =>
    rw [step_close he, close, hnl] at h
    obtain ⟨s₁, -, hitem⟩ := bind_ok_iff.mp h
    rw [item, hnl] at hitem
    cases hitem
    exact .inl rfl
  | done =>
    rw [step_done he] at h
    cases h
    exact .inr he

/-- After tokens that end with a newline the encoder waits for an item, or is done. -/
theorem expects_of_run {s : Encoder} {toks : List Token}
    (hlast : ∀ tok ∈ toks.getLast?, tok.kind = .newline) (h : run t start toks = .ok s) :
    s.expects = .item ∨ s.expects = .done := by
  rcases List.eq_nil_or_concat toks with rfl | ⟨xs, nl, rfl⟩
  · cases h
    exact .inl rfl
  · rw [List.concat_eq_append] at h hlast
    rw [List.getLast?_concat] at hlast
    rw [run_append] at h
    obtain ⟨s₁, -, hstep⟩ := bind_ok_iff.mp h
    rw [run_singleton] at hstep
    exact expects_of_newline (hlast nl rfl) hstep

end Encoder

/-- Tokens that end with a newline decide the first pass, unless `END` is missing. -/
theorem encode_append {t : Table} {toks : List Token}
    (hlast : ∀ tok ∈ toks.getLast?, tok.kind = .newline)
    (h : ∀ line, encode t toks ≠ .error ⟨line, .missingEnd⟩) (more : List Token) :
    encode t (toks ++ more) = encode t toks := by
  unfold encode at h ⊢
  rw [Encoder.run_append]
  cases hrun : Encoder.run t .start toks with
  | error d => rfl
  | ok s =>
    rcases Encoder.expects_of_run hlast hrun with he | he
    · -- only the end of the text comes next
      refine absurd ?_ (h s.line)
      rw [hrun]
      change Encoder.finish t s = _
      simp only [Encoder.finish, he, Encoder.step_item he]
      rfl
    · change (Encoder.run t s more >>= Encoder.finish t) = Encoder.finish t s
      rw [Encoder.run_done he]
      rfl

/-! ### Outcomes -/

/-- What an assembly holds besides its tokens: the image, the symbols and the lines. -/
def Assembly.outcome (a : Assembly) : Image × Symbols × Vector (Option Nat) 256 :=
  (a.image, a.symbols, a.lines)

/-- The outcome depends on what the first pass gives, and on nothing else of the tokens. -/
theorem assembleTokens_outcome_congr {t : Table} {toks toks' : List Token}
    (h : encode t toks = encode t toks') :
    (assembleTokens t toks).map Assembly.outcome = (assembleTokens t toks').map Assembly.outcome := by
  rw [assembleTokens, assembleTokens, h]
  cases encode t toks' with
  | error d => rfl
  | ok e =>
    rcases hlink : link e.symbols e.image with ⟨image, _ | d⟩ <;>
      simp [bind, Except.bind, Except.map, hlink, Assembly.outcome]

/-- The first pass fails for want of `END` only if assembling does. -/
theorem assembleTokens_missingEnd {t : Table} {toks : List Token} {line : Nat}
    (h : encode t toks = .error ⟨line, .missingEnd⟩) :
    assembleTokens t toks = .error ⟨line, .missingEnd⟩ := by
  rw [assembleTokens, h]
  rfl

/-- Unless `END` is missing, more lines behind a source text do not change the outcome: the image, the
symbols and the lines are the same, or the diagnostic is. -/
theorem assemble_append_lines {t : Table} {source : String}
    (h : ∀ line, assemble t source ≠ .error ⟨line, .missingEnd⟩) (more : String) :
    (assemble t (source ++ "\r" ++ more)).map Assembly.outcome =
      (assemble t source).map Assembly.outcome := by
  obtain ⟨rest, hrest⟩ := tokenize_prefix source more
  apply assembleTokens_outcome_congr
  have hlast : ∀ tok ∈ (tokenize source).getLast?, tok.kind = .newline := by
    rw [tokenize_eq_tokensOfLines]
    exact Lexer.tokensOfLines_getLast 1 _
  rw [← hrest]
  refine encode_append hlast (fun line hline => ?_) rest
  exact h line (assembleTokens_missingEnd hline)

/-- A jump to a label before `END`, and one to a label that is defined behind `END`: the second one
has no target. -/
theorem assemble_append_lines_jumps :
    (∃ a, assemble .jumps "JMP L\rL: END" = .ok a ∧ a.image.ram.take 3 = [0xC0, 0x02, 0x00] ∧
      (assemble .jumps ("JMP L\rL: END" ++ "\r" ++ "L: [is] \"ignored")).map Assembly.outcome =
        .ok a.outcome) ∧
    ∃ d, assemble .jumps "JMP L\rEND" = .error d ∧ d.cause ≠ .missingEnd ∧
      (assemble .jumps ("JMP L\rEND" ++ "\r" ++ "L: END")).map Assembly.outcome = .error d := by
  constructor
  · obtain ⟨a, ha, hram⟩ := exists_ok_of_map_toOption (x := assemble .jumps "JMP L\rL: END")
      (f := fun a => a.image.ram.take 3) (b := [0xC0, 0x02, 0x00]) (by decide +kernel)
    refine ⟨a, ha, hram, ?_⟩
    rw [assemble_append_lines (by simp [ha]), ha]
    rfl
  · have hfault : assemble .jumps "JMP L\rEND" = .error ⟨1, .unresolved "L"⟩ := by decide +kernel
    refine ⟨_, hfault, by decide, ?_⟩
    rw [assemble_append_lines (by simp [hfault]), hfault]
    rfl

end Asm8
