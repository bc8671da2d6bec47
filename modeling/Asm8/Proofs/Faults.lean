import Asm8.Proofs.Remainder

/-!
Where a fault is reported, and when a variant is missing.

A step of the encoder that fails does so on the line of its token. The one exception is an opcode that
the table does not have: it is missed when the statement is closed, and reported on the line of the
token before. Linking reports the lines of symbols, which are those of their tokens. So every
diagnostic names the line of a token, or line 1.

    operands      close
    line n        line n'        no opcode for the shape found:  line n
                                 any other fault:                line n'

While an instruction is open its group is the one that the table has for the mnemonic, and the shape
found is one of the group's, so that no opcode is missing if the table has one for each of them.
-/

namespace Asm8

/-- The table has an opcode for every shape of every group. -/
def Table.Complete (t : Table) : Prop :=
  ∀ m g s, t.group? m = some g → s ∈ g.shapes → ∃ b, t.opcode? m s = some b

/-- An open instruction has the group of its mnemonic, and candidates and shapes of this group. -/
def Expectation.Follows (t : Table) : Expectation → Prop
  | .operand i live => t.group? i.mnemonic = some i.group ∧ ∃ ks, live = .after i.group ks
  | .close (some (i, shape)) => t.group? i.mnemonic = some i.group ∧ shape ∈ i.group.shapes
  | _ => True

namespace Encoder

variable {t : Table} {s s' : Encoder} {P : Nat → Prop}

/-! ### Lines of a state -/

/-- The current line and the lines of all symbols are such lines. -/
structure Cites (s : Encoder) (P : Nat → Prop) : Prop where
  line : P s.line
  symbols : ∀ e ∈ s.symbols.entries, P e.line

/-- The step leaves a state with such lines, or fails on such a line and not for want of a variant. -/
inductive Reports (P : Nat → Prop) : Except Diagnostic Encoder → Prop
  | ok {s : Encoder} (h : s.Cites P) : Reports P (.ok s)
  | error {d : Diagnostic} (hl : P d.line) (hc : ∀ v, d.cause ≠ .missingVariant v) :
    Reports P (.error d)

theorem Reports.bind {x : Except Diagnostic Encoder} {f : Encoder → Except Diagnostic Encoder}
    (hx : Reports P x) (hf : ∀ s, s.Cites P → Reports P (f s)) : Reports P (x >>= f) := by
  cases hx with
  | ok h => exact hf _ h
  | error hl hc => exact .error hl hc

theorem Cites.fail (h : s.Cites P) {cause : Cause} (hc : ∀ v, cause ≠ .missingVariant v) :
    Reports P (s.fail cause) :=
  .error h.line hc

theorem reports_unexpected {tok : Token} (h : P tok.line) (expected : String) :
    Reports P (.error (tok.unexpected expected)) :=
  .error h (by simp [Token.unexpected])

theorem Cites.onLine (h : s.Cites P) {line : Nat} (hl : P line) : { s with line }.Cites P :=
  ⟨hl, h.symbols⟩

/-! ### What a step reports -/

theorem Cites.write (h : s.Cites P) (b : UInt8) : Reports P (s.write b) := by
  unfold Encoder.write
  split
  · exact h.fail (by simp)
  · exact .ok ⟨h.line, h.symbols⟩

theorem Cites.writeAll (h : s.Cites P) (bs : List UInt8) : Reports P (s.writeAll bs) := by
  induction bs generalizing s with
  | nil => exact .ok h
  | cons b bs ih => exact (h.write b).bind fun s₁ h₁ => ih h₁

theorem Cites.label (h : s.Cites P) (name : String) : Reports P (s.label name) := by
  unfold Encoder.label
  split
  · exact h.fail (by simp)
  split
  · exact h.fail (by simp)
  split
  · exact h.fail (by simp)
  split
  · exact h.fail (by simp)
  · refine .ok ⟨h.line, fun e he => ?_⟩
    rw [Symbols.entries_define, List.mem_append, List.mem_singleton] at he
    rcases he with he | rfl
    · exact h.symbols e he
    · exact h.line

/-- A mnemonic of the table has a first row, so that no variant is missing yet. -/
theorem Cites.mnemonic (h : s.Cites P) (m : String) : Reports P (mnemonic t s m) := by
  unfold Encoder.mnemonic
  split
  · exact h.fail (by simp)
  next g hg =>
  split
  · exact h.fail (by simp)
  split
  · next hnone =>
    obtain ⟨b, hb⟩ := exists_placeholder hg
    simp [hnone] at hb
  · exact (h.write _).bind fun s₁ h₁ => .ok ⟨h₁.line, h₁.symbols⟩

theorem Cites.word (h : s.Cites P) (w : String) : Reports P (word t s w) := by
  unfold Encoder.word
  split
  · exact .ok ⟨h.line, h.symbols⟩
  split
  · exact .ok ⟨h.line, h.symbols⟩
  split
  · exact (h.write _).bind fun s₁ h₁ => .ok ⟨h₁.line, h₁.symbols⟩
  · exact h.mnemonic w

theorem Cites.item (h : s.Cites P) {tok : Token} (htok : P tok.line) :
    Reports P (item t s tok) := by
  unfold Encoder.item
  split
  · exact .ok h
  · exact .ok ⟨h.line, h.symbols⟩
  · exact h.fail (by split <;> simp)
  · exact h.label _
  · exact h.word _
  · exact reports_unexpected htok _

theorem Cites.origin (h : s.Cites P) {tok : Token} (htok : P tok.line) :
    Reports P (origin s tok) := by
  unfold Encoder.origin
  split
  · exact reports_unexpected htok _
  · exact .ok ⟨h.line, h.symbols⟩

theorem Cites.characterDatum (h : s.Cites P) (raw : String) :
    Reports P (s.characterDatum raw) := by
  unfold Encoder.characterDatum
  split
  · exact h.fail (by simp)
  · refine (h.write _).bind fun s₁ h₁ => ?_
    split
    · exact .ok h₁
    · exact h₁.fail (by simp)

theorem Cites.stringDatum (h : s.Cites P) (raw : String) : Reports P (s.stringDatum raw) := by
  unfold Encoder.stringDatum
  split
  · exact h.fail (by simp)
  · exact h.writeAll _

theorem Cites.datum (h : s.Cites P) {tok : Token} (htok : P tok.line) :
    Reports P (datum s tok) := by
  have hclose : ∀ s₁ : Encoder, s₁.Cites P → Reports P (.ok (s₁.await (.close none))) :=
    fun s₁ h₁ => .ok ⟨h₁.line, h₁.symbols⟩
  unfold Encoder.datum
  split
  · exact (h.characterDatum _).bind hclose
  · exact (h.stringDatum _).bind hclose
  · split
    · exact (h.write _).bind hclose
    · exact reports_unexpected htok _

theorem Cites.symbol (h : s.Cites P) (name : String) (mode : Mode) :
    Reports P (s.symbol name mode) := by
  unfold Encoder.symbol
  split
  · exact h.fail (by simp)
  split
  · exact h.fail (by simp)
  · refine (h.write _).bind fun s₁ h₁ => .ok ⟨h₁.line, fun e he => ?_⟩
    rw [Symbols.entries_refer, List.mem_append, List.mem_singleton] at he
    rcases he with he | rfl
    · exact h₁.symbols e he
    · exact h.line

theorem Cites.operandByte (h : s.Cites P) (k : Class) (kind : Kind) :
    Reports P (s.operandByte k kind) := by
  cases k with
  | hex =>
    simp only [Encoder.operandByte]
    split
    · exact h.write _
    · exact .ok h
  | register =>
    simp only [Encoder.operandByte]
    split
    · exact h.write _
    · exact .ok h
  | offset => exact h.symbol _ _
  | absolute => exact h.symbol _ _
  | openBracket => exact .ok h
  | closeBracket => exact .ok h
  | comma => exact .ok h

theorem Cites.operand (h : s.Cites P) (i : Instruction) (live : Candidates) {tok : Token}
    (htok : P tok.line) : Reports P (operand s i live tok) := by
  unfold Encoder.operand
  split
  · exact reports_unexpected htok _
  · exact (h.operandByte _ _).bind fun s₁ h₁ => .ok ⟨h₁.line, h₁.symbols⟩

/-- What closing a statement misses: the opcode of the shape found. -/
structure Misses (t : Table) (s : Encoder) (i : Instruction) (shape : Shape) : Prop where
  expects : s.expects = .close (some (i, shape))
  variants : i.group.hasVariants
  opcode : t.opcode? i.mnemonic shape = none

theorem misses_of_settle {p : Option (Instruction × Shape)} {d : Diagnostic}
    (he : s.expects = .close p) (h : settle t s p = .error d) :
    d.line = s.line ∧ ∃ i shape, Misses t s i shape := by
  obtain _ | ⟨i, shape⟩ := p
  · cases h
  · unfold settle at h
    dsimp only at h
    split at h
    · next hv =>
      split at h
      · next hnone =>
        cases h
        exact ⟨rfl, i, shape, he, hv, hnone⟩
      · cases h
    · cases h

/-- A step fails on the line of its token, unless it misses the opcode of the statement that it
closes. -/
theorem Cites.step (h : s.Cites P) {tok : Token} (htok : P tok.line) :
    Reports P (step t s tok) ∨
      ∃ d i shape, step t s tok = .error d ∧ d.line = s.line ∧ Misses t s i shape := by
  have hline := h.onLine htok
  cases he : s.expects with
  | item =>
    rw [step_item he]
    exact .inl (hline.item htok)
  | origin =>
    rw [step_origin he]
    exact .inl (hline.origin htok)
  | datum =>
    rw [step_datum he]
    exact .inl (hline.datum htok)
  | operand i live =>
    rw [step_operand he]
    exact .inl (hline.operand i live htok)
  | close p =>
    rw [step_close he, close]
    split
    · cases hs : settle t s p with
      | error d =>
        obtain ⟨hl, i, shape, hmisses⟩ := misses_of_settle he hs
        exact .inr ⟨d, i, shape, rfl, hl, hmisses⟩
      | ok s₁ =>
        have hkeeps := settle_keeps hs
        refine .inl (Cites.item ⟨htok, ?_⟩ htok)
        rw [hkeeps]
        exact h.symbols
    · exact .inl (reports_unexpected htok _)
  | done =>
    rw [step_done he]
    exact .inl (.ok h)

/-! ### Runs -/

/-- A run that fails does so in one of its steps. -/
theorem exists_step_of_run_error {d : Diagnostic} : ∀ {toks : List Token} {s : Encoder},
    run t s toks = .error d → ∃ xs tok ys s₁, toks = xs ++ tok :: ys ∧ run t s xs = .ok s₁ ∧
      step t s₁ tok = .error d
  | [], _, h => by cases h
  | tok :: toks, s, h => by
    rw [run_cons] at h
    cases hstep : step t s tok with
    | error d' =>
      rw [hstep] at h
      cases h
      exact ⟨[], tok, toks, s, rfl, rfl, hstep⟩
    | ok s₁ =>
      rw [hstep] at h
      obtain ⟨xs, tok', ys, s₂, rfl, hxs, hfail⟩ := exists_step_of_run_error h
      refine ⟨tok :: xs, tok', ys, s₂, rfl, ?_, hfail⟩
      rw [run_cons, hstep]
      exact hxs

theorem Cites.of_step (h : s.Cites P) {tok : Token} (htok : P tok.line)
    (hs : Encoder.step t s tok = .ok s') : s'.Cites P := by
  rcases h.step (t := t) htok with hreports | ⟨d, i, shape, hfail, -⟩
  · rw [hs] at hreports
    cases hreports with
    | ok h' => exact h'
  · rw [hs] at hfail
    cases hfail

theorem Cites.of_run : ∀ {toks : List Token} {s : Encoder}, s.Cites P →
    (∀ tok ∈ toks, P tok.line) → run t s toks = .ok s' → s'.Cites P
  | [], _, h, _, hrun => by cases hrun; exact h
  | tok :: toks, s, h, htoks, hrun => by
    obtain ⟨s₁, hstep, hrest⟩ := bind_ok_iff.mp hrun
    have h₁ := h.of_step (htoks tok (by simp)) hstep
    exact h₁.of_run (fun tok' htok' => htoks tok' (by simp [htok'])) hrest

/-- Where a step fails, it does so on a line of the state or of the token. -/
theorem Cites.line_of_step (h : s.Cites P) {tok : Token} (htok : P tok.line) {d : Diagnostic}
    (hs : Encoder.step t s tok = .error d) : P d.line := by
  rcases h.step (t := t) htok with hreports | ⟨d', i, shape, hfail, hl, -⟩
  · rw [hs] at hreports
    cases hreports with
    | error hl _ => exact hl
  · rw [hs] at hfail
    cases hfail
    rw [hl]
    exact h.line

/-! ### Open instructions -/

theorem follows_operandsOf {i : Instruction} (hg : t.group? i.mnemonic = some i.group)
    (ks : List Class) : (operandsOf i (.after i.group ks)).Follows t := by
  unfold operandsOf
  split
  · next shape hshape => exact ⟨hg, (Candidates.complete?_after.mp hshape).1⟩
  · exact ⟨hg, ks, rfl⟩

theorem follows_mnemonic {m : String} (h : mnemonic t s m = .ok s') : s'.expects.Follows t := by
  unfold mnemonic at h
  split at h
  · simp [fail] at h
  next g hg =>
  split at h
  · simp [fail] at h
  split at h
  · simp [fail] at h
  obtain ⟨s₁, -, hok⟩ := bind_ok_iff.mp h
  cases hok
  exact follows_operandsOf (i := ⟨m, g, s.image.cursor⟩) hg []

theorem follows_item {tok : Token} (he : s.expects = .item)
    (h : Encoder.item t s tok = .ok s') : s'.expects.Follows t := by
  have hitem : ∀ s₁ : Encoder, s₁.expects = s.expects → s₁.expects.Follows t := by
    intro s₁ hs₁
    rw [hs₁, he]
    trivial
  unfold Encoder.item at h
  split at h
  · cases h
    exact hitem _ rfl
  · cases h
    exact hitem _ rfl
  · simp [fail] at h
  · obtain ⟨-, -, -, rfl⟩ := label_eq_ok.mp h
    exact hitem _ rfl
  · unfold word at h
    split at h
    · cases h
      trivial
    split at h
    · cases h
      trivial
    split at h
    · obtain ⟨s₁, -, hok⟩ := bind_ok_iff.mp h
      cases hok
      trivial
    · exact follows_mnemonic h
  · simp at h

/-- An open instruction goes on with candidates of its group, up to a shape of its group. -/
theorem follows_step {tok : Token} (hf : s.expects.Follows t) (h : step t s tok = .ok s') :
    s'.expects.Follows t := by
  cases he : s.expects with
  | item =>
    rw [step_item he] at h
    exact follows_item (s := { s with line := tok.line }) he h
  | origin =>
    rw [step_origin he, Encoder.origin] at h
    split at h
    · simp at h
    · cases h
      trivial
  | datum =>
    rw [step_datum he] at h
    obtain ⟨bs, hbs⟩ := datum?_isSome h
    rw [datum_eq hbs] at h
    obtain ⟨s₁, -, hok⟩ := bind_ok_iff.mp h
    cases hok
    trivial
  | operand i live =>
    rw [he] at hf
    obtain ⟨hg, ks, rfl⟩ := hf
    obtain ⟨k, -, -, he'⟩ := expects_of_step_operand he h
    rw [he']
    exact follows_operandsOf hg _
  | close p =>
    rw [step_close he, Encoder.close] at h
    split at h
    · obtain ⟨s₁, -, hitem⟩ := bind_ok_iff.mp h
      exact follows_item rfl hitem
    · simp at h
  | done =>
    rw [step_done he] at h
    cases h
    exact hf

theorem follows_run : ∀ {toks : List Token} {s : Encoder}, s.expects.Follows t →
    run t s toks = .ok s' → s'.expects.Follows t
  | [], _, hf, hrun => by cases hrun; exact hf
  | _ :: _, _, hf, hrun => by
    obtain ⟨s₁, hstep, hrest⟩ := bind_ok_iff.mp hrun
    exact follows_run (follows_step hf hstep) hrest

/-- No step misses a variant if the table has an opcode for every shape of a group. -/
theorem not_misses_of_follows {i : Instruction} {shape : Shape} (hf : s.expects.Follows t)
    (ht : t.Complete) : ¬Misses t s i shape := by
  intro hmisses
  rw [hmisses.expects] at hf
  obtain ⟨b, hb⟩ := ht _ _ _ hf.1 hf.2
  rw [hmisses.opcode] at hb
  cases hb

end Encoder

/-! ### The first pass -/

/-- The first pass fails in a step, at the latest in one that takes the last line to end, or it has
made this step and lacks `END`. -/
theorem exists_step_of_encode_error {t : Table} {toks : List Token} {d : Diagnostic}
    (h : encode t toks = .error d) :
    ∃ xs s tok, xs <+: toks ∧ Encoder.run t .start xs = .ok s ∧
      (tok ∈ toks ∨ tok.line = s.line) ∧
      (Encoder.step t s tok = .error d ∨
        ∃ s', Encoder.step t s tok = .ok s' ∧ d = ⟨s'.line, .missingEnd⟩) := by
  unfold encode at h
  cases hrun : Encoder.run t .start toks with
  | error d' =>
    rw [hrun] at h
    cases h
    obtain ⟨xs, tok, ys, s, rfl, hxs, hstep⟩ := Encoder.exists_step_of_run_error hrun
    exact ⟨xs, s, tok, List.prefix_append _ _, hxs, .inl (by simp), .inl hstep⟩
  | ok s =>
    rw [hrun] at h
    change Encoder.finish t s = .error d at h
    refine ⟨toks, s, ⟨.newline, s.line, 0⟩, List.prefix_rfl, hrun, .inr rfl, ?_⟩
    unfold Encoder.finish at h
    split at h
    · cases h
    · cases hstep : Encoder.step t s ⟨.newline, s.line, 0⟩ with
      | error d' =>
        rw [hstep] at h
        cases h
        exact .inl rfl
      | ok s' =>
        rw [hstep] at h
        cases h
        exact .inr ⟨s', rfl, rfl⟩

/-- With a complete table the first pass never misses a variant. -/
theorem Table.Complete.encode_ne {t : Table} (ht : t.Complete) (toks : List Token) (line : Nat)
    (variant : String) : encode t toks ≠ .error ⟨line, .missingVariant variant⟩ := by
  intro h
  obtain ⟨xs, s, tok, -, hxs, -, hstep | ⟨s', -, hd⟩⟩ := exists_step_of_encode_error h
  · have hstart : Encoder.start.expects.Follows t := trivial
    have hfollows := Encoder.follows_run hstart hxs
    have hany : s.Cites fun _ => True := ⟨trivial, fun _ _ => trivial⟩
    have htok : (fun _ : Nat => True) tok.line := trivial
    rcases hany.step (t := t) htok with hreports | ⟨-, i, shape, -, -, hmisses⟩
    · rw [hstep] at hreports
      cases hreports with
      | error _ hc => exact hc variant rfl
    · exact Encoder.not_misses_of_follows hfollows ht hmisses
  · cases hd

/-- The line is that of a token, or the first one. -/
def IsCited (toks : List Token) (line : Nat) : Prop :=
  line = 1 ∨ ∃ tok ∈ toks, tok.line = line

theorem isCited_of_mem {toks : List Token} {tok : Token} (h : tok ∈ toks) :
    IsCited toks tok.line :=
  .inr ⟨tok, h, rfl⟩

/-- As long as tokens are taken from a list, the encoder notes their lines and no others. -/
theorem Encoder.cites_of_run {t : Table} {xs toks : List Token} {s : Encoder} (hxs : xs <+: toks)
    (h : run t start xs = .ok s) : s.Cites (IsCited toks) := by
  have hstart : start.Cites (IsCited toks) := ⟨.inl rfl, by simp [start]⟩
  exact hstart.of_run (fun tok htok => isCited_of_mem (hxs.subset htok)) h

theorem line_of_encode_error {t : Table} {toks : List Token} {d : Diagnostic}
    (h : encode t toks = .error d) : IsCited toks d.line := by
  obtain ⟨xs, s, tok, hprefix, hxs, htok, hstep⟩ := exists_step_of_encode_error h
  have hcites := Encoder.cites_of_run hprefix hxs
  have hline : IsCited toks tok.line := by
    rcases htok with hmem | heq
    · exact isCited_of_mem hmem
    · rw [heq]
      exact hcites.line
  rcases hstep with hfail | ⟨s', hok, rfl⟩
  · exact hcites.line_of_step hline hfail
  · exact (hcites.of_step hline hok).line

/-! ### Linking -/

theorem Link.exists_line_of_servePairs {d : Diagnostic} :
    ∀ {ps : List (Symbol × Symbol)} {m m' : Image}, servePairs ps m = (m', some d) →
      ∃ p ∈ ps, d.line = p.1.line
  | [], _, _, h => by cases h
  | (label, u) :: ps, m, m', h => by
    rw [servePairs] at h
    split at h
    · obtain ⟨p, hp, hline⟩ := exists_line_of_servePairs h
      exact ⟨p, by simp [hp], hline⟩
    · cases h
      exact ⟨(label, u), by simp, rfl⟩

/-- Linking fails on the line of a symbol. -/
theorem exists_line_of_link {ss : Symbols} {m m' : Image} {d : Diagnostic}
    (h : link ss m = (m', some d)) : ∃ e ∈ ss.entries, d.line = e.line := by
  rw [link_eq] at h
  split at h
  · next hserve =>
    cases h
    obtain ⟨p, hp, hline⟩ := Link.exists_line_of_servePairs hserve
    have hlabel : p.1 ∈ ss.definitions := (Link.mem_pairs.mp hp).1
    exact ⟨p.1, List.mem_of_mem_filter hlabel, hline⟩
  · obtain ⟨-, hnone⟩ := Prod.mk.inj h
    obtain ⟨r, hr, rfl⟩ := Option.map_eq_some_iff.mp hnone
    have hmem := List.mem_of_mem_filter (List.mem_of_find?_eq_some hr)
    exact ⟨r.1, List.fst_mem_of_mem_zipIdx hmem, rfl⟩

/-- Every diagnostic names the line of a token, or line 1. -/
theorem line_of_assembleTokens_error {t : Table} {toks : List Token} {d : Diagnostic}
    (h : assembleTokens t toks = .error d) : IsCited toks d.line := by
  unfold assembleTokens at h
  cases he : encode t toks with
  | error d' =>
    rw [he] at h
    cases h
    exact line_of_encode_error he
  | ok e =>
    obtain ⟨s, hrun, -, rfl⟩ := encode_eq_ok.mp he
    have hcites := Encoder.cites_of_run List.prefix_rfl hrun
    rcases hlink : link s.symbols s.image with ⟨m, _ | d'⟩
    · simp [he, bind, Except.bind, hlink] at h
    · simp only [he, bind, Except.bind, hlink] at h
      cases h
      obtain ⟨sym, hsym, hline⟩ := exists_line_of_link hlink
      rw [hline]
      exact hcites.symbols sym hsym

end Asm8
