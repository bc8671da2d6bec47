import Asm8.Proofs.Faults
import Asm8.Proofs.Stream

/-!
One statement to a line.

Behind a word nothing but the end of the statement brings the encoder back to where items start, and
in the tokens of a text a comment is the last thing on its line:

    item ── word ──▶ operands, close ── newline ──▶ item, nothing on the line yet
                                     ── comment ──▶ item ── newline ──▶ item
                                     ── other ────▶ unexpected

So whatever comes behind a statement on its line is refused where the statement should close, and
never as a second mnemonic. Only tokens that go on behind a comment get so far.
-/

namespace Asm8

namespace Encoder

variable {t : Table} {s : Encoder} {tok : Token}

/-! ### What a step can do -/

/-- Bytes are written and symbols noted, or it fails, and not for a second mnemonic. -/
inductive Steady (s : Encoder) : Except Diagnostic Encoder → Prop
  | ok {s' : Encoder} (h : s.Keeps s') : Steady s (.ok s')
  | error {d : Diagnostic} (h : d.cause ≠ .secondMnemonic) : Steady s (.error d)

theorem Steady.bind {x : Except Diagnostic Encoder} {f : Encoder → Except Diagnostic Encoder}
    (hx : Steady s x) (hf : ∀ s', Steady s' (f s')) : Steady s (x >>= f) := by
  cases hx with
  | error h => exact .error h
  | @ok s₁ h =>
    have hnext := hf s₁
    change Steady s (f s₁)
    generalize f s₁ = y at hnext
    cases hnext with
    | ok h' => exact .ok (h.trans h')
    | error h' => exact .error h'

theorem steady_write (s : Encoder) (b : UInt8) : Steady s (s.write b) := by
  unfold write
  split
  · exact .error (by simp)
  · exact .ok ⟨rfl, rfl, rfl, rfl⟩

theorem steady_writeAll (bs : List UInt8) (s : Encoder) : Steady s (s.writeAll bs) := by
  induction bs generalizing s with
  | nil => exact .ok (.refl s)
  | cons b bs ih => exact (steady_write s b).bind ih

theorem steady_characterDatum (s : Encoder) (raw : String) : Steady s (s.characterDatum raw) := by
  unfold characterDatum
  split
  · exact .error (by simp)
  · refine (steady_write s _).bind fun s₁ => ?_
    split
    · exact .ok (.refl s₁)
    · exact .error (by simp)

theorem steady_stringDatum (s : Encoder) (raw : String) : Steady s (s.stringDatum raw) := by
  unfold stringDatum
  split
  · exact .error (by simp)
  · exact steady_writeAll _ s

theorem steady_symbol (s : Encoder) (name : String) (mode : Mode) :
    Steady s (s.symbol name mode) := by
  unfold symbol
  split
  · exact .error (by simp)
  split
  · exact .error (by simp)
  · exact (steady_write s _).bind fun s₁ => .ok ⟨rfl, rfl, rfl, rfl⟩

theorem steady_operandByte (s : Encoder) (k : Class) (kind : Kind) :
    Steady s (s.operandByte k kind) := by
  unfold operandByte
  split
  · split
    · exact steady_write s _
    · exact .ok (.refl s)
  · split
    · exact steady_write s _
    · exact .ok (.refl s)
  · exact steady_symbol s _ _
  · exact steady_symbol s _ _
  all_goals exact .ok (.refl s)

theorem steady_settle (s : Encoder) (p : Option (Instruction × Shape)) :
    Steady s (settle t s p) := by
  unfold settle
  split
  · exact .ok (.refl s)
  split
  · split
    · exact .error (by simp)
    · exact .ok ⟨rfl, rfl, rfl, rfl⟩
  · exact .ok (.refl s)

/-- What a step can do to what is expected, and to the mark of a mnemonic on the line. -/
inductive Turn (expects : Expectation) (opened : Bool) (tok : Token) :
    Except Diagnostic Encoder → Prop
  /-- behind `END` -/
  | ended {s : Encoder} (h : expects = .done) (he : s.expects = .done) :
    Turn expects opened tok (.ok s)
  | lineEnd {s : Encoder} (hk : tok.kind = .newline) (he : s.expects = .item)
    (ho : s.opened = false) : Turn expects opened tok (.ok s)
  | comment {s : Encoder} {body : String} (hk : tok.kind = .comment body)
    (he : s.expects = .item) (ho : s.opened = opened) : Turn expects opened tok (.ok s)
  | label {s : Encoder} {name : String} (h : expects = .item) (hk : tok.kind = .label name)
    (he : s.expects = .item) (ho : s.opened = opened) : Turn expects opened tok (.ok s)
  | word {s : Encoder} {w : String} (h : expects = .item) (hk : tok.kind = .word w)
    (he : s.expects ≠ .item) : Turn expects opened tok (.ok s)
  /-- within a statement -/
  | goesOn {s : Encoder} (h : expects ≠ .item) (he : s.expects ≠ .item) (hd : s.expects ≠ .done)
    (ho : s.opened = opened) : Turn expects opened tok (.ok s)
  | second {line : Nat} {w : String} (h : expects = .item) (hk : tok.kind = .word w)
    (ho : opened) : Turn expects opened tok (.error ⟨line, .secondMnemonic⟩)
  | fault {d : Diagnostic} (h : d.cause ≠ .secondMnemonic) : Turn expects opened tok (.error d)

theorem Steady.goesOn {x : Except Diagnostic Encoder} (hx : Steady s x) {e e' : Expectation}
    (h : e ≠ .item) (he : e' ≠ .item) (hd : e' ≠ .done) :
    Turn e s.opened tok (x >>= fun s' => .ok (s'.await e')) := by
  cases hx with
  | ok hkeeps => exact .goesOn h he hd hkeeps.opened
  | error hcause => exact .fault hcause

theorem Steady.word {x : Except Diagnostic Encoder} (hx : Steady s x) {f : Encoder → Encoder}
    {opened : Bool} {w : String} (hk : tok.kind = .word w) (hf : ∀ s', (f s').expects ≠ .item) :
    Turn .item opened tok (x >>= fun s' => .ok (f s')) := by
  cases hx with
  | ok => exact .word rfl hk (hf _)
  | error hcause => exact .fault hcause

theorem operandsOf_ne (i : Instruction) (live : Candidates) :
    operandsOf i live ≠ .item ∧ operandsOf i live ≠ .done := by
  unfold operandsOf
  split <;> simp

theorem turn_mnemonic {w : String} (hk : tok.kind = .word w) (m : String) :
    Turn .item s.opened tok (mnemonic t s m) := by
  unfold mnemonic
  split
  · exact .fault (by simp)
  split
  · next hopened => exact .second rfl hk hopened
  split
  · exact .fault (by simp)
  · exact (steady_write s _).word hk fun s' => (operandsOf_ne _ _).1

theorem turn_word {w : String} (hk : tok.kind = .word w) :
    Turn .item s.opened tok (word t s w) := by
  unfold word
  split
  · exact .word rfl hk (by simp [await])
  split
  · exact .word rfl hk (by simp [await])
  split
  · exact (steady_write s _).word hk (by simp [await])
  · exact turn_mnemonic hk w

theorem turn_item (he : s.expects = .item) : Turn .item s.opened tok (item t s tok) := by
  unfold item
  split
  · next hk => exact .comment hk he rfl
  · next hk => exact .lineEnd hk he rfl
  · exact .fault (by dsimp only; split <;> simp)
  · next hk =>
    unfold label
    split
    · exact .fault (by simp)
    split
    · exact .fault (by simp)
    split
    · exact .fault (by simp)
    split
    · exact .fault (by simp)
    · exact .label rfl hk he rfl
  · next hk => exact turn_word hk
  · exact .fault (by simp [Token.unexpected])

theorem turn_datum : Turn .datum s.opened tok (datum s tok) := by
  have hclose : ∀ {x : Except Diagnostic Encoder}, Steady s x →
      Turn .datum s.opened tok (x >>= fun s' => .ok (s'.await (.close none))) :=
    fun hx => hx.goesOn (by simp) (by simp) (by simp)
  unfold datum
  split
  · exact hclose (steady_characterDatum s _)
  · exact hclose (steady_stringDatum s _)
  · split
    · exact hclose (steady_write s _)
    · exact .fault (by simp [Token.unexpected])

theorem turn_close (p : Option (Instruction × Shape)) :
    Turn (.close p) s.opened tok (close t s p tok) := by
  unfold close
  split
  · next hends =>
    have hsettle := steady_settle (t := t) s p
    generalize settle t s p = x at hsettle
    cases hsettle with
    | error hcause => exact .fault hcause
    | ok hkeeps =>
      cases hk : tok.kind with
      | newline =>
        simp only [item, hk]
        exact .lineEnd hk rfl rfl
      | comment body =>
        simp only [item, hk]
        exact .comment hk rfl hkeeps.opened
      | _ => simp [hk, Kind.endsStatement] at hends
  · exact .fault (by simp [Token.unexpected])

/-- What a step can do, by what is expected. -/
theorem turn_step (t : Table) (s : Encoder) (tok : Token) :
    Turn s.expects s.opened tok (step t s tok) := by
  cases he : s.expects with
  | item =>
    rw [step_item he]
    exact turn_item (s := { s with line := tok.line }) he
  | origin =>
    rw [step_origin he, origin]
    split
    · exact .fault (by simp [Token.unexpected])
    · exact .goesOn (by simp) (by simp) (by simp) rfl
  | datum =>
    rw [step_datum he]
    exact turn_datum (s := { s with line := tok.line })
  | operand i live =>
    rw [step_operand he, operand]
    split
    · exact .fault (by simp [Token.unexpected])
    · next k _ =>
      have hnext := operandsOf_ne i (live.advance k)
      exact (steady_operandByte { s with line := tok.line } k _).goesOn (by simp) hnext.1 hnext.2
  | close p =>
    rw [step_close he]
    exact turn_close p
  | done =>
    rw [step_done he]
    exact .ended rfl he

/-! ### Lines with a statement -/

/-- A word stands on the line of the last token, so that a statement has begun there. -/
def Begun (toks : List Token) : Prop :=
  ∃ us word vs, toks = us ++ word :: vs ∧ (∃ w, word.kind = .word w) ∧
    ∀ tok ∈ vs, tok.kind ≠ .newline

variable {s' : Encoder} {xs ys : List Token}

theorem begun_concat {w : String} (hk : tok.kind = .word w) (xs : List Token) :
    Begun (xs ++ [tok]) :=
  ⟨xs, tok, [], rfl, ⟨w, hk⟩, by simp⟩

theorem Begun.concat (h : Begun xs) (htok : tok.kind ≠ .newline) : Begun (xs ++ [tok]) := by
  obtain ⟨us, word, vs, rfl, hword, hvs⟩ := h
  refine ⟨us, word, vs ++ [tok], by simp, hword, ?_⟩
  rw [List.forall_mem_append]
  exact ⟨hvs, by simpa using htok⟩

/-- The mark of a mnemonic is set on a line with a word only. -/
theorem begun_of_run (hrun : run t .start xs = .ok s) (hopened : s.opened)
    (hdone : s.expects ≠ .done) : Begun xs := by
  induction xs using List.reverseRecOn generalizing s with
  | nil =>
    cases hrun
    cases hopened
  | append_singleton xs tok ih =>
    rw [run_append] at hrun
    obtain ⟨s₁, hxs, hstep⟩ := bind_ok_iff.mp hrun
    rw [run_singleton] at hstep
    -- behind `END` a step changes nothing, so the run had not come there before the last token
    have hdone₁ : s₁.expects ≠ .done := by
      intro hd
      rw [step_done hd] at hstep
      cases hstep
      exact hdone hd
    have hkeeps : s.opened = s₁.opened → tok.kind ≠ .newline → Begun (xs ++ [tok]) :=
      fun ho hk => (ih hxs (ho ▸ hopened) hdone₁).concat hk
    have hturn := turn_step t s₁ tok
    rw [hstep] at hturn
    cases hturn with
    | ended h => exact absurd h hdone₁
    | lineEnd _ _ ho => simp [ho] at hopened
    | comment hk _ ho => exact hkeeps ho (by simp [hk])
    | label _ hk _ ho => exact hkeeps ho (by simp [hk])
    | word _ hk => exact begun_concat hk xs
    | goesOn _ he hd ho =>
      refine hkeeps ho fun hnl => ?_
      rcases expects_of_newline hnl hstep with hitem | hended
      · exact he hitem
      · exact hd hended

/-- Within a statement only its end leads back to where items start. -/
theorem expects_ne_item_of_step (hstep : step t s tok = .ok s')
    (htok : tok.kind.endsStatement = false) (h : s.expects ≠ .item ∨ ∃ w, tok.kind = .word w) :
    s'.expects ≠ .item := by
  have hturn := turn_step t s tok
  rw [hstep] at hturn
  cases hturn with
  | ended _ he => simp [he]
  | lineEnd hk => simp [hk, Kind.endsStatement] at htok
  | comment hk => simp [hk, Kind.endsStatement] at htok
  | label he hk => simp [he, hk] at h
  | word _ _ he => exact he
  | goesOn _ he => exact he

theorem expects_ne_item_of_run : ∀ {xs : List Token} {s : Encoder}, s.expects ≠ .item →
    (∀ tok ∈ xs, tok.kind.endsStatement = false) → run t s xs = .ok s' → s'.expects ≠ .item
  | [], _, h, _, hrun => by cases hrun; exact h
  | tok :: xs, s, h, hxs, hrun => by
    obtain ⟨htok, hrest⟩ := List.forall_mem_cons.mp hxs
    obtain ⟨s₁, hstep, hrun⟩ := bind_ok_iff.mp hrun
    exact expects_ne_item_of_run (expects_ne_item_of_step hstep htok (.inl h)) hrest hrun

/-- Where comments are the last on their line, nothing can start behind a statement on its line. -/
theorem expects_ne_item_of_begun (hbegun : Begun xs) (hrun : run t .start xs = .ok s)
    (hclosed : Lexer.Closed (xs ++ tok :: ys)) (htok : tok.kind ≠ .newline) :
    s.expects ≠ .item := by
  obtain ⟨us, word, vs, rfl, ⟨w, hword⟩, hvs⟩ := hbegun
  have hopen : ∀ v ∈ vs, v.kind.endsStatement = false := by
    intro v hv
    cases hk : v.kind with
    | newline => exact absurd hk (hvs v hv)
    | comment body =>
      -- its newline would be the next of `vs`, or `tok`
      obtain ⟨front, back, rfl⟩ := List.append_of_mem hv
      obtain ⟨nl, zs, hnext, hnl⟩ := hclosed (us ++ word :: front) v (back ++ tok :: ys)
        (by simp) (by simp [hk, Kind.lastsLine])
      cases back with
      | nil => exact absurd ((List.cons.inj hnext).1 ▸ hnl) htok
      | cons b back => exact absurd ((List.cons.inj hnext).1 ▸ hnl) (hvs b (by simp))
    | _ => rfl
  rw [run_append] at hrun
  obtain ⟨s₁, -, hrun⟩ := bind_ok_iff.mp hrun
  obtain ⟨s₂, hstep, hrest⟩ := bind_ok_iff.mp hrun
  have hne := expects_ne_item_of_step hstep (by rw [hword]; rfl) (.inr ⟨w, hword⟩)
  exact expects_ne_item_of_run hne hopen hrest

theorem expects_of_secondMnemonic {line : Nat} (h : step t s tok = .error ⟨line, .secondMnemonic⟩) :
    s.expects = .item ∧ s.opened ∧ ∃ w, tok.kind = .word w := by
  have hturn := turn_step t s tok
  rw [h] at hturn
  cases hturn with
  | second he hk ho => exact ⟨he, ho, _, hk⟩
  | fault hcause => exact absurd rfl hcause

end Encoder

/-! ### Assembling -/

theorem Link.cause_of_servePairs {d : Diagnostic} :
    ∀ {ps : List (Symbol × Symbol)} {m m' : Image}, servePairs ps m = (m', some d) →
      ∃ key k, d.cause = .unreachable key k
  | [], _, _, h => by cases h
  | (label, u) :: ps, m, m', h => by
    rw [servePairs] at h
    split at h
    · exact cause_of_servePairs h
    · cases h
      exact ⟨_, _, rfl⟩

/-- Linking fails for a label out of reach or a symbol without a label. -/
theorem cause_of_link {ss : Symbols} {m m' : Image} {d : Diagnostic}
    (h : link ss m = (m', some d)) :
    (∃ key k, d.cause = .unreachable key k) ∨ ∃ key, d.cause = .unresolved key := by
  rw [link_eq] at h
  split at h
  · next hserve =>
    cases h
    exact .inl (Link.cause_of_servePairs hserve)
  · obtain ⟨-, hopen⟩ := Prod.mk.inj h
    obtain ⟨r, -, rfl⟩ := Option.map_eq_some_iff.mp hopen
    exact .inr ⟨_, rfl⟩

/-- A mnemonic is the second one on its line only behind a comment on this line. -/
theorem encode_ne_secondMnemonic {t : Table} {toks : List Token}
    (hclosed : Lexer.Closed toks) (line : Nat) :
    encode t toks ≠ .error ⟨line, .secondMnemonic⟩ := by
  intro h
  unfold encode at h
  cases hrun : Encoder.run t .start toks with
  | error d =>
    rw [hrun] at h
    cases h
    obtain ⟨xs, tok, ys, s, rfl, hxs, hstep⟩ := Encoder.exists_step_of_run_error hrun
    obtain ⟨hitem, hopened, w, hk⟩ := Encoder.expects_of_secondMnemonic hstep
    have hbegun := Encoder.begun_of_run hxs hopened (by simp [hitem])
    exact Encoder.expects_ne_item_of_begun hbegun hxs hclosed (by simp [hk]) hitem
  | ok s =>
    rw [hrun] at h
    change Encoder.finish t s = _ at h
    unfold Encoder.finish at h
    split at h
    · cases h
    · cases hstep : Encoder.step t s ⟨.newline, s.line, 0⟩ with
      | error d =>
        rw [hstep] at h
        cases h
        obtain ⟨-, -, w, hk⟩ := Encoder.expects_of_secondMnemonic hstep
        cases hk
      | ok s' =>
        rw [hstep] at h
        cases h

theorem assembleTokens_ne_secondMnemonic {t : Table} {toks : List Token}
    (hclosed : Lexer.Closed toks) (line : Nat) :
    assembleTokens t toks ≠ .error ⟨line, .secondMnemonic⟩ := by
  intro h
  unfold assembleTokens at h
  cases he : encode t toks with
  | error d =>
    rw [he] at h
    cases h
    exact encode_ne_secondMnemonic hclosed line he
  | ok e =>
    rcases hlink : link e.symbols e.image with ⟨m, _ | d⟩
    · simp [he, bind, Except.bind, hlink] at h
    · simp only [he, bind, Except.bind, hlink] at h
      cases h
      rcases cause_of_link hlink with ⟨key, k, hcause⟩ | ⟨key, hcause⟩ <;> cases hcause

/-- The first step that fails decides. -/
theorem assembleTokens_of_step_error {t : Table} {xs ys : List Token} {tok : Token} {s : Encoder}
    {d : Diagnostic} (hrun : Encoder.run t .start xs = .ok s)
    (hstep : Encoder.step t s tok = .error d) : assembleTokens t (xs ++ tok :: ys) = .error d := by
  have hfails : Encoder.run t .start (xs ++ tok :: ys) = .error d := by
    rw [Encoder.run_append, hrun]
    change Encoder.run t s (tok :: ys) = _
    rw [Encoder.run_cons, hstep]
    rfl
  rw [assembleTokens, encode, hfails]
  rfl

/-- On the line of a word no newline stands between. -/
theorem Lexer.Orderly.begun {n : Nat} {xs ys : List Token} {word tok : Token}
    (h : Orderly n (xs ++ tok :: ys)) (hmem : word ∈ xs) (hline : word.line = tok.line)
    (hword : ∃ w, word.kind = .word w) : Encoder.Begun xs := by
  obtain ⟨us, vs, rfl⟩ := List.append_of_mem hmem
  have hfirst := h.line us word (vs ++ tok :: ys) (by simp)
  have hsecond := h.line (us ++ word :: vs) tok ys rfl
  rw [List.countP_append, List.countP_cons] at hsecond
  have hnone : vs.countP (·.kind = .newline) = 0 := by omega
  refine ⟨us, word, vs, rfl, hword, fun v hv => ?_⟩
  simpa using List.countP_eq_zero.mp hnone v hv

/-- No text fails for a second mnemonic on a line. Where a statement has begun on the line and the
encoder awaits none of its operands, all but a comment and the newline is refused, since a comment
is expected there. Only tokens that are put together in another way come to a second mnemonic. -/
theorem assemble_one_statement (t : Table) (source : String) :
    (∀ line, assemble t source ≠ .error ⟨line, .secondMnemonic⟩) ∧
      (∀ xs tok ys s, tokenize source = xs ++ tok :: ys → Encoder.run t .start xs = .ok s →
        (s.expects = .item ∨ ∃ p, s.expects = .close p) → tok.kind.endsStatement = false →
        (∃ word ∈ xs, word.line = tok.line ∧ ∃ w, word.kind = .word w) →
        assemble t source = .error (tok.unexpected "a comment")) ∧
      ∃ t' toks line, assembleTokens t' toks = .error ⟨line, .secondMnemonic⟩ := by
  have horderly := Lexer.orderly_tokenize source
  refine ⟨assembleTokens_ne_secondMnemonic horderly.closed, ?_, ?_⟩
  · rintro xs tok ys s htoks hrun hexpects hends ⟨word, hmem, hline, hword⟩
    rw [htoks] at horderly
    have hbegun := horderly.begun hmem hline hword
    have hnl : tok.kind ≠ .newline := by
      intro hnl
      simp [hnl, Kind.endsStatement] at hends
    have hne := Encoder.expects_ne_item_of_begun hbegun hrun horderly.closed hnl
    obtain ⟨p, hp⟩ := hexpects.resolve_left hne
    rw [assemble, htoks]
    apply assembleTokens_of_step_error hrun
    rw [Encoder.step_close hp, Encoder.close, hends]
    rfl
  · -- the comment is not the last token of its line
    refine ⟨.jumps, [⟨.word "JMP", 1, 1⟩, ⟨.word "L", 1, 5⟩, ⟨.comment "", 1, 7⟩,
      ⟨.word "JMP", 1, 8⟩], 1, ?_⟩
    decide +kernel

/-- Two jumps on a line. -/
theorem assemble_one_statement_jumps :
    assemble .jumps "L: JMP L JMP L\rEND" = .error ⟨1, .unexpected "a comment" (some "JMP")⟩ := by
  have htoks : tokenize "L: JMP L JMP L\rEND" =
      [⟨.label "L", 1, 1⟩, ⟨.word "JMP", 1, 4⟩, ⟨.word "L", 1, 8⟩] ++ ⟨.word "JMP", 1, 10⟩ ::
        [⟨.word "L", 1, 14⟩, ⟨.newline, 1, 15⟩, ⟨.word "END", 2, 1⟩, ⟨.newline, 2, 4⟩] := by
    decide +kernel
  obtain ⟨s, hrun, hexpects⟩ := exists_ok_of_map_toOption
    (x := Encoder.run .jumps .start [⟨.label "L", 1, 1⟩, ⟨.word "JMP", 1, 4⟩, ⟨.word "L", 1, 8⟩])
    (f := fun s => s.expects) (b := .close (some (⟨"JMP", .offset, 0⟩, .offset)))
    (by decide +kernel)
  exact (assemble_one_statement .jumps _).2.1 _ _ _ s htoks hrun (.inr ⟨_, hexpects⟩) rfl
    ⟨⟨.word "JMP", 1, 4⟩, by simp, rfl, _, rfl⟩

end Asm8
