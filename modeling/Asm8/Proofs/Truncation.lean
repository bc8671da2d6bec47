import Asm8.Proofs.OneStatement
import Asm8.Proofs.Operands

/-!
Tokens that break off.

A list of tokens may end anywhere: between two items, behind `ORG` or `DB`, among the operands of an
instruction, or right behind a statement. What the first pass says then is what it says of a line that
ends there:

    ... JMP                   expected: symbol                       on the line of the last token
    ... ORG                   expected: hexadecimal number           on the line of the last token
    ... MOV AL, BL            the opcode is settled, END is missing  on the line of the last token
    ... END                   encoded

The line is that of the last token, since every step but those behind `END` notes the line of its token.
-/

namespace Asm8

namespace Encoder

variable {t : Table} {s s' : Encoder} {tok : Token}

/-! ### The line of the last token -/

theorem Steady.line_of_ok {x : Except Diagnostic Encoder} (hx : Steady s x) (h : x = .ok s') :
    s'.line = s.line := by
  subst h
  cases hx with
  | ok hkeeps => exact hkeeps.line

/-- Bytes are written, and then at most what is expected changes. -/
theorem Steady.line_of_bind {x : Except Diagnostic Encoder} (hx : Steady s x)
    {f : Encoder → Encoder} (h : (x >>= fun s₁ => .ok (f s₁)) = .ok s')
    (hf : ∀ s₁, (f s₁).line = s₁.line) : s'.line = s.line := by
  obtain ⟨s₁, hs₁, hok⟩ := bind_ok_iff.mp h
  rw [← Except.ok.inj hok, hf, hx.line_of_ok hs₁]

theorem line_of_mnemonic {m : String} (h : mnemonic t s m = .ok s') : s'.line = s.line := by
  unfold mnemonic at h
  split at h
  · cases h
  split at h
  · cases h
  split at h
  · cases h
  · exact (steady_write s _).line_of_bind h fun _ => rfl

theorem line_of_word {w : String} (h : word t s w = .ok s') : s'.line = s.line := by
  unfold word at h
  split at h
  · cases h
    rfl
  split at h
  · cases h
    rfl
  split at h
  · exact (steady_write s _).line_of_bind h fun _ => rfl
  · exact line_of_mnemonic h

theorem line_of_item (h : item t s tok = .ok s') : s'.line = s.line := by
  unfold item at h
  split at h
  · cases h
    rfl
  · cases h
    rfl
  · cases h
  · obtain ⟨-, -, -, rfl⟩ := label_eq_ok.mp h
    rfl
  · exact line_of_word h
  · cases h

theorem line_of_datum (h : datum s tok = .ok s') : s'.line = s.line := by
  unfold datum at h
  split at h
  · exact (steady_characterDatum s _).line_of_bind h fun _ => rfl
  · exact (steady_stringDatum s _).line_of_bind h fun _ => rfl
  · split at h
    · exact (steady_write s _).line_of_bind h fun _ => rfl
    · cases h

/-- Before `END` every step notes the line of its token. -/
theorem line_of_step (h : step t s tok = .ok s') (hd : s.expects ≠ .done) : s'.line = tok.line := by
  cases he : s.expects with
  | item =>
    rw [step_item he] at h
    exact line_of_item h
  | origin =>
    rw [step_origin he, origin] at h
    split at h
    · cases h
    · cases h
      rfl
  | datum =>
    rw [step_datum he] at h
    exact line_of_datum h
  | operand i live =>
    rw [step_operand he, operand] at h
    split at h
    · cases h
    · exact (steady_operandByte { s with line := tok.line } _ _).line_of_bind h fun _ => rfl
  | close settles =>
    rw [step_close he, close] at h
    split at h
    · obtain ⟨s₁, -, hitem⟩ := bind_ok_iff.mp h
      exact line_of_item hitem
    · cases h
  | done => exact absurd he hd

/-- Before `END` the encoder is on the line of the last token. -/
theorem line_of_run : ∀ {toks : List Token} {s : Encoder}, run t s toks = .ok s' →
    s'.expects ≠ .done → s'.line = lineAfter s.line toks
  | [], _, h, _ => by
    cases h
    rfl
  | tok :: toks, s, h, hd => by
    obtain ⟨s₁, hstep, hrun⟩ := bind_ok_iff.mp h
    -- behind `END` the run would have stayed there
    have hs : s.expects ≠ .done := by
      intro hdone
      rw [run_done hdone] at h
      cases h
      exact hd hdone
    rw [lineAfter_cons, line_of_run hrun hd, line_of_step hstep hs]

/-! ### What is missing -/

/-- What the encoder says when there are no more tokens: whatever it waits for is missing on the line
where it is, and there is no spelling to show for it. -/
def breakOff (t : Table) (s : Encoder) : Except Diagnostic Encoded :=
  match s.expects with
  | .item => s.fail .missingEnd
  | .origin => s.fail (.unexpected Class.hex.phrase none)
  | .datum => s.fail (.unexpected datumPhrase none)
  | .operand _ live => s.fail (.unexpected (Class.describe live.expected) none)
  | .close settles => settle t s settles >>= fun s => s.fail .missingEnd
  | .done => .ok ⟨s.image, s.symbols, s.lines⟩

/-- A newline on the current line, taken for an item, only closes the line. -/
theorem item_newline {nl : Token} (hk : nl.kind = .newline) (hline : nl.line = s.line) :
    item t { s with line := nl.line, expects := .item } nl =
      .ok { s with labelled := false, opened := false, expects := .item } := by
  rw [item, hk, hline]

/-- A newline on the current line is refused or leaves only `END` to wait for, as if the tokens broke
off before it. -/
theorem step_newline {nl : Token} (hk : nl.kind = .newline) (hline : nl.line = s.line) :
    (step t s nl >>= breakOff t) = breakOff t s := by
  have hunexpected : ∀ expected, nl.unexpected expected = ⟨s.line, .unexpected expected none⟩ := by
    intro expected
    rw [Token.unexpected, hk, hline]
    rfl
  cases he : s.expects with
  | item =>
    have hitem := item_newline (t := t) hk hline
    rw [← he] at hitem
    rw [step_item he, hitem]
    simp only [breakOff, he]
    rfl
  | origin =>
    rw [step_origin he, origin, hk, breakOff, he]
    simp only [Kind.hex?, hunexpected]
    rfl
  | datum =>
    rw [step_datum he, datum, hk, breakOff, he]
    simp only [Kind.hex?, hunexpected]
    rfl
  | operand i live =>
    rw [step_operand he, operand_of_endsStatement (by rw [hk]; rfl), hunexpected, breakOff, he]
    rfl
  | close settles =>
    have hclose : step t s nl =
        settle t s settles >>= fun s => item t { s with line := nl.line, expects := .item } nl := by
      rw [step_close he, close, hk]
      rfl
    have hbreak : breakOff t s = settle t s settles >>= fun s => s.fail .missingEnd := by
      rw [breakOff, he]
    rw [hclose, hbreak]
    cases hsettle : settle t s settles with
    | error d => rfl
    | ok s₁ =>
      have hs₁ : s₁.line = s.line := (steady_settle s settles).line_of_ok hsettle
      change (item t { s₁ with line := nl.line, expects := .item } nl >>= breakOff t) = _
      rw [item_newline hk (hline.trans hs₁.symm)]
      rfl
  | done =>
    rw [step_done he]
    rfl

theorem finish_eq_breakOff (t : Table) (s : Encoder) : finish t s = breakOff t s := by
  have hnewline : (step t s ⟨.newline, s.line, 0⟩ >>= breakOff t) = breakOff t s :=
    step_newline rfl rfl
  by_cases hd : s.expects = .done
  · rw [finish, breakOff, hd]
  · have hfinish : finish t s = step t s ⟨.newline, s.line, 0⟩ >>= fun s => s.fail .missingEnd := by
      unfold finish
      split
      · contradiction
      · rfl
    rw [hfinish, ← hnewline]
    cases hstep : step t s ⟨.newline, s.line, 0⟩ with
    | error d => rfl
    | ok s₁ =>
      change s₁.fail .missingEnd = breakOff t s₁
      rcases expects_of_newline rfl hstep with he | he
      · rw [breakOff, he]
      · -- only `END` is followed by nothing
        have hturn := turn_step t s ⟨.newline, s.line, 0⟩
        rw [hstep] at hturn
        cases hturn with
        | ended h => exact absurd h hd
        | lineEnd _ hitem => simp [he] at hitem
        | comment hk => cases hk
        | label _ hk => cases hk
        | word _ hk => cases hk
        | goesOn _ _ hdone => exact absurd he hdone

end Encoder

/-! ### The first pass -/

/-- Tokens that break off read as a line that ends there. Where the tokens run out, what the encoder
waits for is missing (`breakOff`), and a newline behind them, on the line of the last token or on line 1
if there is none, changes nothing: the image, the symbols and the lines are the same, or the diagnostic
is. -/
theorem encode_concat_newline (t : Table) (toks : List Token) (col : Nat) :
    encode t toks = Encoder.run t .start toks >>= Encoder.breakOff t ∧
      encode t (toks ++ [⟨.newline, Encoder.lineAfter 1 toks, col⟩]) = encode t toks := by
  have hencode : ∀ toks, encode t toks = Encoder.run t .start toks >>= Encoder.breakOff t := by
    intro toks
    exact bind_congr fun s => Encoder.finish_eq_breakOff t s
  refine ⟨hencode toks, ?_⟩
  rw [hencode, hencode, Encoder.run_append]
  cases hrun : Encoder.run t .start toks with
  | error d => rfl
  | ok s =>
    change (Encoder.run t s [_] >>= Encoder.breakOff t) = Encoder.breakOff t s
    rw [Encoder.run_singleton]
    by_cases hd : s.expects = .done
    · rw [Encoder.step_done hd]
      rfl
    · exact Encoder.step_newline rfl (Encoder.line_of_run hrun hd).symm

end Asm8
