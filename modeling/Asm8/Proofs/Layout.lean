import Asm8.Proofs.Remainder

/-!
The layout of a program does not matter.

Two runs are compared step by step: both go on, in states that are alike, or both fail, with faults
that are alike (`Outcomes`). Without its comments a source text gives the same result, since each
comment is followed by the newline of its line, and a newline ends whatever a comment ends:

    tokens     t₁ ... tₙ comment newline
    without    t₁ ... tₙ         newline      the same state, or a fault on the same line

And lines and columns are only reported: tokens of the same kinds give the same bytes and symbols,
or fail for the same cause.
-/

namespace Asm8

/-! ### Two outcomes -/

/-- Both computations succeed with related results, or both fail with related faults. -/
inductive Outcomes {ε α β : Type} (E : ε → ε → Prop) (R : α → β → Prop) :
    Except ε α → Except ε β → Prop
  | ok {a : α} {b : β} (h : R a b) : Outcomes E R (.ok a) (.ok b)
  | error {d d' : ε} (h : E d d') : Outcomes E R (.error d) (.error d')

/-- One computation after the other. -/
theorem Outcomes.bind {ε α β γ δ : Type} {E : ε → ε → Prop} {R : α → β → Prop} {S : γ → δ → Prop}
    {x : Except ε α} {y : Except ε β} {f : α → Except ε γ} {g : β → Except ε δ}
    (h : Outcomes E R x y) (hf : ∀ a b, R a b → Outcomes E S (f a) (g b)) :
    Outcomes E S (x >>= f) (y >>= g) := by
  cases h with
  | ok h => exact hf _ _ h
  | error h => exact .error h

/-! ### Comments -/

/-- The same cause, whatever was found in the place of what was expected. -/
inductive Cause.Similar : Cause → Cause → Prop
  | refl (c : Cause) : Similar c c
  | unexpected (expected : String) (got got' : Option String) :
    Similar (.unexpected expected got) (.unexpected expected got')

/-- The same line and the same cause, whatever was found in the place of what was expected. -/
structure Diagnostic.Similar (d d' : Diagnostic) : Prop where
  line : d.line = d'.line
  cause : d.cause.Similar d'.cause

theorem Diagnostic.Similar.refl (d : Diagnostic) : d.Similar d :=
  ⟨rfl, .refl d.cause⟩

/-- Whether the token is a comment. -/
def Kind.isComment : Kind → Bool
  | .comment _ => true
  | _ => false

/-- The tokens that are no comments. -/
def withoutComments (toks : List Token) : List Token :=
  toks.filter fun tok => !tok.kind.isComment

/-- Every comment is directly followed by a newline on its line. -/
inductive CommentsClose : List Token → Prop
  | nil : CommentsClose []
  | comment {tok nl : Token} {toks : List Token} (hc : tok.kind.isComment)
    (hnl : nl.kind = .newline) (hl : nl.line = tok.line) (h : CommentsClose toks) :
    CommentsClose (tok :: nl :: toks)
  | cons {tok : Token} {toks : List Token} (hc : tok.kind.isComment = false)
    (h : CommentsClose toks) : CommentsClose (tok :: toks)

namespace Encoder

variable {t : Table}

/-- What was expected and the line do not depend on the token that ends the statement too early. -/
theorem similar_unexpected {tok tok' : Token} (hl : tok'.line = tok.line) (expected : String) :
    (tok.unexpected expected).Similar (tok'.unexpected expected) :=
  ⟨hl.symm, .unexpected _ _ _⟩

/-- A comment before a newline makes no difference. -/
theorem step_comment_newline {s : Encoder} {tok nl : Token} (hc : tok.kind.isComment)
    (hnl : nl.kind = .newline) (hl : nl.line = tok.line) :
    Outcomes Diagnostic.Similar Eq (step t s tok >>= fun s' => step t s' nl) (step t s nl) := by
  obtain ⟨kind, line, col⟩ := tok
  obtain ⟨kind', line', col'⟩ := nl
  cases kind <;> cases hc
  cases hnl
  cases he : s.expects with
  | item =>
    rw [step_item he, step_item he]
    change Outcomes _ _ (step t { s with line } _) _
    rw [step_item (s := { s with line }) he]
    exact .ok rfl
  | origin =>
    rw [step_origin he, step_origin he]
    exact .error (similar_unexpected hl _)
  | datum =>
    rw [step_datum he, step_datum he]
    exact .error (similar_unexpected hl _)
  | operand i live =>
    rw [step_operand he, step_operand he, operand_of_endsStatement rfl,
      operand_of_endsStatement rfl]
    exact .error (similar_unexpected hl _)
  | close settles =>
    rw [step_close he, step_close he, close, close]
    cases hs : settle t s settles with
    | error d => exact .error (.refl d)
    | ok s' => exact .ok rfl
  | done =>
    rw [step_done he, step_done he]
    change Outcomes _ _ (step t s _) _
    rw [step_done he]
    exact .ok rfl

/-- A run without the comments gives the same result. -/
theorem run_withoutComments {toks : List Token} (h : CommentsClose toks) : ∀ s : Encoder,
    Outcomes Diagnostic.Similar Eq (run t s toks) (run t s (withoutComments toks)) := by
  induction h with
  | nil => intro s; exact .ok rfl
  | @comment tok nl toks hc hnl hl _ ih =>
    intro s
    have hnl' : nl.kind.isComment = false := by rw [hnl]; rfl
    have htoks : withoutComments (tok :: nl :: toks) = nl :: withoutComments toks := by
      simp [withoutComments, hc, hnl']
    have hrun : run t s (tok :: nl :: toks) =
        (step t s tok >>= fun s' => step t s' nl) >>= fun s' => run t s' toks := by
      rw [run_cons]
      cases step t s tok <;> rfl
    rw [htoks, hrun, run_cons]
    refine (step_comment_newline hc hnl hl).bind ?_
    rintro s₁ _ rfl
    exact ih s₁
  | @cons tok toks hc _ ih =>
    intro s
    have htoks : withoutComments (tok :: toks) = tok :: withoutComments toks := by
      simp [withoutComments, hc]
    rw [htoks, run_cons, run_cons]
    cases step t s tok with
    | error d => exact .error (.refl d)
    | ok s₁ => exact ih s₁

end Encoder

namespace Lexer

/-- A line with its newline has its comment at the end. -/
theorem Line.commentsClose {n : Nat} {ts rest : List Token} {nl : Token} (h : Line n ts)
    (hnl : nl.kind = .newline) (hl : nl.line = n) (hrest : CommentsClose rest) :
    CommentsClose (ts ++ nl :: rest) := by
  induction h with
  | nil => exact .cons (by rw [hnl]; rfl) hrest
  | comment => exact .comment rfl hnl hl hrest
  | @cons kind col ts hk hc _ ih =>
    refine .cons ?_ ih
    cases kind <;> first | rfl | exact absurd rfl (hc _)

/-- Every comment of a source text is followed by the newline of its line. -/
theorem commentsClose_tokensOfLines : ∀ (line : Nat) (lines : List (List Char)),
    CommentsClose (tokensOfLines line lines)
  | _, [] => .nil
  | line, cs :: lines => by
    by_cases h : lineTokens line 1 cs ≠ [] ∨ lines ≠ []
    · rw [tokensOfLines_cons line cs lines h]
      exact (line_lineTokens line 1 cs).commentsClose rfl rfl
        (commentsClose_tokensOfLines (line + 1) lines)
    · simp only [not_or, not_not] at h
      rw [h.2, tokensOfLines, h.1]
      exact .nil

end Lexer

/-- Comments do not change what the first pass makes of a source text: without them it gives the
same image, symbols and lines, or fails on the same line and for the same cause, apart from the
spelling of a token that was found too early. -/
theorem encode_withoutComments (t : Table) (source : String) :
    Outcomes Diagnostic.Similar Eq (encode t (tokenize source))
      (encode t (withoutComments (tokenize source))) := by
  have hclose : CommentsClose (tokenize source) := by
    rw [tokenize_eq_tokensOfLines]
    exact Lexer.commentsClose_tokensOfLines 1 _
  refine (Encoder.run_withoutComments hclose .start).bind ?_
  rintro s _ rfl
  cases Encoder.finish t s with
  | error d => exact .error (.refl d)
  | ok e => exact .ok rfl

/-- The two runs do not find the same: the jump ends at its comment, or at its newline. -/
example :
    encode .jumps (tokenize "JMP ;x\rEND\r") = .error ⟨1, .unexpected "symbol" (some ";x")⟩ ∧
    encode .jumps (withoutComments (tokenize "JMP ;x\rEND\r")) =
      .error ⟨1, .unexpected "symbol" none⟩ := by decide +kernel

/-! ### Symbols without their lines -/

/-- A symbol with its line forgotten: name, role and address are left. -/
def Symbol.unlined (s : Symbol) : Symbol :=
  { s with line := 0 }

theorem Symbol.moves_unlined : Symbol.Moves Symbol.unlined :=
  ⟨fun _ => rfl, fun _ => rfl⟩

/-- The symbols in order with their lines forgotten. -/
def Symbols.unlined (ss : Symbols) : Symbols :=
  ss.map Symbol.unlined

theorem Symbols.unlined_define (ss : Symbols) (name : String) (address line : Nat) :
    (ss.define name address line).unlined = ss.unlined.define name address 0 := by
  simp [unlined, map, define, Symbol.unlined]

theorem Symbols.unlined_refer (ss : Symbols) (name : String) (mode : Mode) (address line : Nat) :
    (ss.refer name mode address line).unlined = ss.unlined.refer name mode address 0 := by
  simp [unlined, map, refer, Symbol.unlined]

theorem Symbols.isDefined_unlined (ss : Symbols) (name : String) :
    ss.unlined.isDefined name = ss.isDefined name :=
  isDefined_map Symbol.moves_unlined ss name

namespace Link

theorem pairs_unlined (ss : Symbols) :
    pairs ss.unlined = (pairs ss).map (Prod.map Symbol.unlined Symbol.unlined) :=
  Symbols.pairs_map Symbol.moves_unlined ss

/-- Pairs are served alike whatever their lines are. -/
theorem servePairs_unlined : ∀ (ps : List (Symbol × Symbol)) (m : Image),
    Prod.map id (Option.map Diagnostic.cause)
        (servePairs (ps.map (Prod.map Symbol.unlined Symbol.unlined)) m) =
      Prod.map id (Option.map Diagnostic.cause) (servePairs ps m)
  | [], _ => rfl
  | (label, u) :: ps, m => by
    have hbyte : operandByte? label.unlined u.unlined = operandByte? label u := rfl
    change Prod.map id _ (servePairs ((label.unlined, u.unlined) :: ps.map _) m) = _
    rw [servePairs, servePairs, hbyte]
    cases operandByte? label u with
    | some b => exact servePairs_unlined ps (m.patch u.address b)
    | none => rfl

theorem unresolved?_unlined (ss : Symbols) :
    (unresolved? ss.unlined).map Diagnostic.cause = (unresolved? ss).map Diagnostic.cause := by
  simp only [unresolved?, Symbols.isDefined_unlined]
  rw [Symbols.unlined, Symbols.references_map Symbol.moves_unlined, List.find?_map, Option.map_map,
    Option.map_map, Option.map_map]
  rfl

end Link

/-- Linking gives the same image whatever the lines of the symbols are, and fails for the same
cause. -/
theorem link_unlined (ss : Symbols) (m : Image) :
    Prod.map id (Option.map Diagnostic.cause) (link ss.unlined m) =
      Prod.map id (Option.map Diagnostic.cause) (link ss m) := by
  have hserve := Link.servePairs_unlined (Link.pairs ss) m
  rw [link_eq, link_eq, Link.pairs_unlined]
  generalize Link.servePairs (Link.pairs ss) m = x at hserve ⊢
  generalize Link.servePairs ((Link.pairs ss).map _) m = y at hserve ⊢
  obtain ⟨m₁, o⟩ := x
  obtain ⟨m₂, o'⟩ := y
  obtain ⟨hm, hcause⟩ := Prod.mk.inj hserve
  cases o with
  | none =>
    cases o' with
    | none => exact Prod.ext hm (Link.unresolved?_unlined ss)
    | some d' => cases hcause
  | some d =>
    cases o' with
    | none => cases hcause
    | some d' => exact Prod.ext hm hcause

theorem link_congr {ss ss' : Symbols} (h : ss.unlined = ss'.unlined) (m : Image) :
    (link ss m).1 = (link ss' m).1 ∧
      (link ss m).2.map Diagnostic.cause = (link ss' m).2.map Diagnostic.cause := by
  have hlink := link_unlined ss m
  rw [h, link_unlined] at hlink
  exact Prod.mk.inj hlink.symm

/-! ### Positions -/

/-- The same cause, on whatever line. -/
def SameCause (d d' : Diagnostic) : Prop :=
  d.cause = d'.cause

/-- The two states differ in lines only. -/
structure Encoder.Agrees (s s' : Encoder) : Prop where
  image : s.image = s'.image
  symbols : s.symbols.unlined = s'.symbols.unlined
  labelled : s.labelled = s'.labelled
  opened : s.opened = s'.opened
  expects : s.expects = s'.expects

namespace Encoder

/-- Both steps go on in states that differ in lines only, or both fail for the same cause. -/
abbrev Agree : Except Diagnostic Encoder → Except Diagnostic Encoder → Prop :=
  Outcomes SameCause Agrees

variable {t : Table} {s s' : Encoder}

theorem Agrees.isDefined (h : s.Agrees s') (name : String) :
    s.symbols.isDefined name = s'.symbols.isDefined name := by
  rw [← Symbols.isDefined_unlined, h.symbols, Symbols.isDefined_unlined]

theorem Agrees.await (h : s.Agrees s') (e : Expectation) : (s.await e).Agrees (s'.await e) :=
  ⟨h.image, h.symbols, h.labelled, h.opened, rfl⟩

theorem Agrees.onLine (h : s.Agrees s') (line line' : Nat) :
    { s with line }.Agrees { s' with line := line' } :=
  ⟨h.image, h.symbols, h.labelled, h.opened, h.expects⟩

theorem Agrees.write (h : s.Agrees s') (b : UInt8) : Agree (s.write b) (s'.write b) := by
  rw [Encoder.write, Encoder.write, h.image]
  cases s'.image.write b with
  | error fault => exact .error rfl
  | ok image => exact .ok ⟨rfl, h.symbols, h.labelled, h.opened, h.expects⟩

theorem Agrees.writeAll (h : s.Agrees s') (bs : List UInt8) :
    Agree (s.writeAll bs) (s'.writeAll bs) := by
  induction bs generalizing s s' with
  | nil => exact .ok h
  | cons b bs ih => exact (h.write b).bind fun _ _ h₁ => ih h₁

theorem Agrees.label (h : s.Agrees s') (name : String) : Agree (s.label name) (s'.label name) := by
  rw [Encoder.label, Encoder.label, h.isDefined, h.labelled]
  split
  · exact .error rfl
  split
  · exact .error rfl
  split
  · exact .error rfl
  split
  · exact .error rfl
  · refine .ok ⟨h.image, ?_, rfl, h.opened, h.expects⟩
    simp only [Symbols.unlined_define, h.symbols, h.image]

theorem Agrees.mnemonic (h : s.Agrees s') (m : String) :
    Agree (mnemonic t s m) (mnemonic t s' m) := by
  rw [Encoder.mnemonic, Encoder.mnemonic, h.opened, h.image]
  split
  · exact .error rfl
  split
  · exact .error rfl
  split
  · exact .error rfl
  · refine (h.write _).bind fun s₁ s₁' h₁ => .ok ?_
    exact ⟨h₁.image, h₁.symbols, h₁.labelled, rfl, rfl⟩

theorem Agrees.word (h : s.Agrees s') (w : String) : Agree (word t s w) (word t s' w) := by
  rw [Encoder.word, Encoder.word]
  split
  · exact .ok (h.await _)
  split
  · exact .ok (h.await _)
  split
  · exact (h.write _).bind fun s₁ s₁' h₁ => .ok (h₁.await _)
  · exact h.mnemonic w

theorem cause_unexpected {tok tok' : Token} (hk : tok.kind = tok'.kind) (expected : String) :
    SameCause (tok.unexpected expected) (tok'.unexpected expected) := by
  simp only [SameCause, Token.unexpected, hk]

theorem Agrees.item (h : s.Agrees s') {tok tok' : Token} (hk : tok.kind = tok'.kind) :
    Agree (item t s tok) (item t s' tok') := by
  rw [Encoder.item, Encoder.item, hk, h.labelled]
  split
  · exact .ok h
  · exact .ok ⟨h.image, h.symbols, rfl, rfl, h.expects⟩
  · exact .error rfl
  · exact h.label _
  · exact h.word _
  · exact .error (cause_unexpected hk _)

theorem Agrees.origin (h : s.Agrees s') {tok tok' : Token} (hk : tok.kind = tok'.kind) :
    Agree (origin s tok) (origin s' tok') := by
  rw [Encoder.origin, Encoder.origin, hk, h.image]
  cases tok'.kind.hex? with
  | none => exact .error (cause_unexpected hk _)
  | some address => exact .ok ⟨rfl, h.symbols, h.labelled, h.opened, rfl⟩

theorem Agrees.characterDatum (h : s.Agrees s') (raw : String) :
    Agree (s.characterDatum raw) (s'.characterDatum raw) := by
  rw [Encoder.characterDatum, Encoder.characterDatum]
  split
  · exact .error rfl
  · refine (h.write _).bind fun s₁ s₁' h₁ => ?_
    split
    · exact .ok h₁
    · exact .error rfl

theorem Agrees.stringDatum (h : s.Agrees s') (raw : String) :
    Agree (s.stringDatum raw) (s'.stringDatum raw) := by
  rw [Encoder.stringDatum, Encoder.stringDatum]
  split
  · exact .error rfl
  · exact h.writeAll _

theorem Agrees.datum (h : s.Agrees s') {tok tok' : Token} (hk : tok.kind = tok'.kind) :
    Agree (datum s tok) (datum s' tok') := by
  rw [Encoder.datum, Encoder.datum, hk]
  split
  · exact (h.characterDatum _).bind fun s₁ s₁' h₁ => .ok (h₁.await _)
  · exact (h.stringDatum _).bind fun s₁ s₁' h₁ => .ok (h₁.await _)
  · split
    · exact (h.write _).bind fun s₁ s₁' h₁ => .ok (h₁.await _)
    · exact .error (cause_unexpected hk _)

theorem Agrees.symbol (h : s.Agrees s') (name : String) (mode : Mode) :
    Agree (s.symbol name mode) (s'.symbol name mode) := by
  rw [Encoder.symbol, Encoder.symbol, h.image]
  split
  · exact .error rfl
  split
  · exact .error rfl
  · refine (h.write _).bind fun s₁ s₁' h₁ => .ok ?_
    refine ⟨h₁.image, ?_, h₁.labelled, h₁.opened, h₁.expects⟩
    simp only [Symbols.unlined_refer, h₁.symbols]

theorem Agrees.operandByte (h : s.Agrees s') (k : Class) (kind : Kind) :
    Agree (s.operandByte k kind) (s'.operandByte k kind) := by
  cases k with
  | hex =>
    simp only [Encoder.operandByte]
    cases kind.hex? with
    | some b => exact h.write b
    | none => exact .ok h
  | register =>
    simp only [Encoder.operandByte]
    cases kind.register? with
    | some r => exact h.write r.code
    | none => exact .ok h
  | offset => exact h.symbol _ _
  | absolute => exact h.symbol _ _
  | openBracket => exact .ok h
  | closeBracket => exact .ok h
  | comma => exact .ok h

theorem Agrees.operand (h : s.Agrees s') (i : Instruction) (live : Candidates) {tok tok' : Token}
    (hk : tok.kind = tok'.kind) : Agree (operand s i live tok) (operand s' i live tok') := by
  rw [Encoder.operand, Encoder.operand, hk]
  split
  · exact .error (cause_unexpected hk _)
  · exact (h.operandByte _ _).bind fun s₁ s₁' h₁ => .ok (h₁.await _)

theorem Agrees.settle (h : s.Agrees s') (p : Option (Instruction × Shape)) :
    Agree (settle t s p) (settle t s' p) := by
  obtain _ | ⟨i, shape⟩ := p
  · exact .ok h
  · rw [Encoder.settle, Encoder.settle, h.image]
    split
    · split
      · exact .error rfl
      · exact .ok ⟨rfl, h.symbols, h.labelled, h.opened, h.expects⟩
    · exact .ok h

theorem Agrees.close (h : s.Agrees s') (p : Option (Instruction × Shape)) {tok tok' : Token}
    (hk : tok.kind = tok'.kind) : Agree (close t s p tok) (close t s' p tok') := by
  rw [Encoder.close, Encoder.close, hk]
  split
  · refine (h.settle p).bind fun s₁ s₁' h₁ => Agrees.item ?_ hk
    exact ⟨h₁.image, h₁.symbols, h₁.labelled, h₁.opened, rfl⟩
  · exact .error (cause_unexpected hk _)

/-- Taking tokens of one kind, states that differ in lines only go on so, or fail for one cause. -/
theorem Agrees.step (h : s.Agrees s') {tok tok' : Token} (hk : tok.kind = tok'.kind) :
    Agree (step t s tok) (step t s' tok') := by
  have hline := h.onLine tok.line tok'.line
  have he' := h.expects
  cases he : s.expects with
  | item =>
    rw [step_item he, step_item (he'.symm.trans he)]
    exact hline.item hk
  | origin =>
    rw [step_origin he, step_origin (he'.symm.trans he)]
    exact hline.origin hk
  | datum =>
    rw [step_datum he, step_datum (he'.symm.trans he)]
    exact hline.datum hk
  | operand i live =>
    rw [step_operand he, step_operand (he'.symm.trans he)]
    exact hline.operand i live hk
  | close p =>
    rw [step_close he, step_close (he'.symm.trans he)]
    exact h.close p hk
  | done =>
    rw [step_done he, step_done (he'.symm.trans he)]
    exact .ok h

theorem Agrees.run {toks toks' : List Token} (hk : toks.map Token.kind = toks'.map Token.kind) :
    ∀ {s s' : Encoder}, s.Agrees s' → Agree (run t s toks) (run t s' toks') := by
  induction toks generalizing toks' with
  | nil =>
    intro s s' h
    cases toks' with
    | nil => exact .ok h
    | cons => cases hk
  | cons tok toks ih =>
    intro s s' h
    cases toks' with
    | nil => cases hk
    | cons tok' toks' =>
      obtain ⟨htok, htoks⟩ := List.cons.inj hk
      exact (h.step htok).bind fun s₁ s₁' h₁ => ih htoks h₁

theorem Agrees.finish (h : s.Agrees s') :
    Outcomes SameCause (fun e e' => e.image = e'.image ∧ e.symbols.unlined = e'.symbols.unlined)
      (finish t s) (finish t s') := by
  rw [Encoder.finish, Encoder.finish, h.expects]
  split
  · exact .ok ⟨h.image, h.symbols⟩
  · have hstep := @Agrees.step t s s' h ⟨.newline, s.line, 0⟩ ⟨.newline, s'.line, 0⟩ rfl
    exact hstep.bind fun s₁ s₁' _ => .error rfl

end Encoder

/-- The first pass looks at the kinds of tokens only. -/
theorem encode_positions {t : Table} {toks toks' : List Token}
    (h : toks.map Token.kind = toks'.map Token.kind) :
    Outcomes SameCause (fun e e' => e.image = e'.image ∧ e.symbols.unlined = e'.symbols.unlined)
      (encode t toks) (encode t toks') :=
  (Encoder.Agrees.run h ⟨rfl, rfl, rfl, rfl, rfl⟩).bind fun _ _ h₁ => h₁.finish

/-- Lines and columns do not influence the code: tokens of the same kinds in the same order assemble
to one image with the same names, roles and addresses of all symbols, or fail for the same cause. -/
theorem assembleTokens_positions {t : Table} {toks toks' : List Token}
    (h : toks.map Token.kind = toks'.map Token.kind) :
    (∃ a a', assembleTokens t toks = .ok a ∧ assembleTokens t toks' = .ok a' ∧
      a.image = a'.image ∧ a.symbols.unlined = a'.symbols.unlined) ∨
    ∃ d d', assembleTokens t toks = .error d ∧ assembleTokens t toks' = .error d' ∧
      d.cause = d'.cause := by
  have hencode := encode_positions (t := t) h
  rw [assembleTokens, assembleTokens]
  generalize encode t toks = x at hencode ⊢
  generalize encode t toks' = y at hencode ⊢
  cases hencode with
  | error hcause => exact .inr ⟨_, _, rfl, rfl, hcause⟩
  | @ok e e' he =>
    obtain ⟨himage, hsymbols⟩ := he
    obtain ⟨hm, hcause⟩ := link_congr hsymbols e.image
    rcases hx : link e.symbols e.image with ⟨m, o⟩
    rcases hy : link e'.symbols e'.image with ⟨m', o'⟩
    rw [hx, himage, hy] at hm hcause
    cases o with
    | none =>
      cases o' with
      | none =>
        refine .inl ⟨⟨toks, m, e.symbols, e.lines⟩, ⟨toks', m', e'.symbols, e'.lines⟩, ?_, ?_, hm,
          hsymbols⟩
        · exact bind_ok_iff.mpr ⟨e, rfl, by rw [hx]⟩
        · exact bind_ok_iff.mpr ⟨e', rfl, by rw [hy]⟩
      | some d' => cases hcause
    | some d =>
      cases o' with
      | none => cases hcause
      | some d' =>
        refine .inr ⟨d, d', ?_, ?_, Option.some.inj hcause⟩
        · simp [bind, Except.bind, hx]
        · simp [bind, Except.bind, hy]

/-- The same tokens, all of them on line 7. -/
def onSeven (toks : List Token) : List Token :=
  toks.map fun tok => ⟨tok.kind, 7, 0⟩

theorem assembleTokens_positions_jumps :
    (∃ a a', assembleTokens .jumps (tokenize "L: JMP L\rEND\r") = .ok a ∧
      assembleTokens .jumps (onSeven (tokenize "L: JMP L\rEND\r")) = .ok a' ∧
      a.image.ram.take 3 = [0xC0, 0x00, 0x00] ∧ a.image = a'.image ∧
      a.symbols.unlined = a'.symbols.unlined ∧ a.symbols ≠ a'.symbols) ∧
    ∃ d d', assembleTokens .jumps (tokenize "\rJMP L\rEND\r") = .error d ∧
      assembleTokens .jumps (onSeven (tokenize "\rJMP L\rEND\r")) = .error d' ∧
      d.line = 2 ∧ d'.line = 7 ∧ d.cause = d'.cause := by
  have hkinds : ∀ toks : List Token, toks.map Token.kind = (onSeven toks).map Token.kind := by
    intro toks
    rw [onSeven, List.map_map]
    rfl
  constructor
  · obtain ⟨a, ha, hfacts⟩ := exists_ok_of_map_toOption
      (x := assembleTokens .jumps (tokenize "L: JMP L\rEND\r"))
      (f := fun a => (a.image.ram.take 3, a.symbols.entries.map Symbol.line))
      (b := ([0xC0, 0x00, 0x00], [1, 1])) (by decide +kernel)
    obtain ⟨a', ha', hlines'⟩ := exists_ok_of_map_toOption
      (x := assembleTokens .jumps (onSeven (tokenize "L: JMP L\rEND\r")))
      (f := fun a => a.symbols.entries.map Symbol.line) (b := [7, 7]) (by decide +kernel)
    obtain ⟨hram, hlines⟩ := Prod.mk.inj hfacts
    have hne : a.symbols ≠ a'.symbols := by
      intro heq
      rw [heq, hlines'] at hlines
      exact absurd hlines (by decide)
    rcases assembleTokens_positions (t := .jumps) (hkinds (tokenize "L: JMP L\rEND\r")) with
      ⟨b, b', hb, hb', himage, hsymbols⟩ | ⟨d, d', hd, -⟩
    · cases ha.symm.trans hb
      cases ha'.symm.trans hb'
      exact ⟨a, a', ha, ha', hram, himage, hsymbols, hne⟩
    · cases ha.symm.trans hd
  · have hfault : assembleTokens .jumps (tokenize "\rJMP L\rEND\r") =
        .error ⟨2, .unresolved "L"⟩ := by decide +kernel
    have hfault' : assembleTokens .jumps (onSeven (tokenize "\rJMP L\rEND\r")) =
        .error ⟨7, .unresolved "L"⟩ := by decide +kernel
    rcases assembleTokens_positions (t := .jumps) (hkinds (tokenize "\rJMP L\rEND\r")) with
      ⟨a, a', ha, -⟩ | ⟨d, d', hd, hd', hcause⟩
    · cases hfault.symm.trans ha
    · cases hfault.symm.trans hd
      cases hfault'.symm.trans hd'
      exact ⟨_, _, hfault, hfault', rfl, rfl, hcause⟩

end Asm8
