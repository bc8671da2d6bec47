import Asm8.Proofs.Tracking

/-!
The encoder accepts a list of tokens exactly when it reads as items whose replay obeys the rules.

Between two items the encoder waits for an item, or for the end of a statement after which the opcode
may still be replaced (`Boundary`). From there, taking the tokens of one item is replaying the item
(`Boundary.takes`). Any run that reaches `END` is cut into items one after the other
(`exists_item`), and so both directions follow by induction: `encode_reading` for a run that
succeeds, `exists_encode` for items that obey the rules.

    Boundary ── tokens of an item ──▶ Boundary ── tokens of an item ──▶ ... ── END ──▶ done
       |                                 |                                      |
     replay ───────── item ────────▶  replay ───────── item ────────▶ ...     replay
-/

namespace Asm8

namespace Encoder

variable {t : Table}

/-! ### Steps by what is expected -/

theorem step_item {s : Encoder} (he : s.expects = .item) (tok : Token) :
    step t s tok = Encoder.item t { s with line := tok.line } tok := by
  cases s; cases he; rfl

theorem step_origin {s : Encoder} (he : s.expects = .origin) (tok : Token) :
    step t s tok = Encoder.origin { s with line := tok.line } tok := by
  cases s; cases he; rfl

theorem step_datum {s : Encoder} (he : s.expects = .datum) (tok : Token) :
    step t s tok = Encoder.datum { s with line := tok.line } tok := by
  cases s; cases he; rfl

theorem step_operand {s : Encoder} {i : Instruction} {live : Candidates}
    (he : s.expects = .operand i live) (tok : Token) :
    step t s tok = Encoder.operand { s with line := tok.line } i live tok := by
  cases s; cases he; rfl

theorem step_close {s : Encoder} {p : Option (Instruction × Shape)} (he : s.expects = .close p)
    (tok : Token) : step t s tok = Encoder.close t s p tok := by
  cases s; cases he; rfl

theorem step_done {s : Encoder} (he : s.expects = .done) (tok : Token) : step t s tok = .ok s := by
  cases s; cases he; rfl

/-! ### Operands -/

/-- A token that the next class of a shape accepts is taken for this class. -/
theorem step_operandsOf {g : Group} {i : Instruction} {shape : Shape} {pre : List Class} {k : Class}
    {s : Encoder} {tok : Token} (hs : shape ∈ g.shapes) (hpre : pre ++ [k] <+: shape.classes)
    (hk : k.accepts tok.kind) (he : s.expects = operandsOf i (.after g pre)) :
    s.expects = .operand i (.after g pre) ∧
    step t s tok = operandByte { s with line := tok.line } k tok.kind >>= fun s' =>
      .ok (s'.await (operandsOf i (.after g (pre ++ [k])))) := by
  have hexp : s.expects = .operand i (.after g pre) := by
    simp [he, operandsOf, Candidates.complete?_after_eq_none hs hpre]
  have hfind := Candidates.find?_expected_after.mpr
    ⟨Candidates.mem_expected_after.mpr ⟨shape, hs, hpre⟩, hk⟩
  refine ⟨hexp, ?_⟩
  rw [step_operand hexp, operand, hfind, Candidates.after_concat]

/-- The operand tokens of a shape are taken one by one, and complete it. -/
theorem yields_operands {g : Group} {i : Instruction} {shape : Shape} (hs : shape ∈ g.shapes)
    {ks : List Class} {toks : List Token} (hm : Class.Match ks toks) :
    ∀ {pre : List Class} {s : Encoder} {r : Replay}, shape.classes = pre ++ ks →
      s.expects = operandsOf i (.after g pre) → s.Tracks r → r.Sound →
      Yields (run t s toks) (r.emitAll (Class.emissions ks toks)) fun s' =>
        s'.Tracks (r.emitAll (Class.emissions ks toks)) ∧
          s'.expects = .close (some (i, shape)) ∧
          s'.labelled = s.labelled ∧ s'.opened = s.opened := by
  induction hm with
  | nil =>
    intro pre s r hcl he ht hr
    have hcomplete : (Candidates.after g pre).complete? = some shape :=
      Candidates.complete?_after.mpr ⟨hs, by simpa using hcl⟩
    exact yields_ok hr ⟨ht, by simp [he, operandsOf, hcomplete], rfl, rfl⟩
  | @cons k tok ks toks hk _ ih =>
    intro pre s r hcl he ht hr
    have hpre : pre ++ [k] <+: shape.classes := ⟨ks, by simp [hcl]⟩
    have hrun : run t s (tok :: toks) =
        operandByte { s with line := tok.line } k tok.kind >>= fun s' =>
          run t (s'.await (operandsOf i (.after g (pre ++ [k])))) toks := by
      rw [run_cons, (step_operandsOf hs hpre hk he).2]
      cases operandByte { s with line := tok.line } k tok.kind <;> rfl
    rw [hrun, Class.emissions_cons, Replay.emitAll_append]
    have hbyte := yields_operandByte (s := { s with line := tok.line }) k
      ht hr rfl
    refine hbyte.bind (Replay.extends_emitAll _ _) ?_
    rintro s' hr' ⟨ht', hkeep⟩
    refine (@ih (pre ++ [k]) (s'.await (operandsOf i (.after g (pre ++ [k])))) _ (by simp [hcl])
      rfl ht' hr').imp Iff.rfl ?_
    rintro s'' - ⟨ht'', he'', hl'', ho''⟩
    exact ⟨ht'', he'', hl''.trans hkeep.labelled, ho''.trans hkeep.opened⟩

/-- A token that is taken as an operand belongs to an expected class, and the candidates are followed
by this class. -/
theorem expects_of_step_operand {g : Group} {i : Instruction} {pre : List Class} {s s' : Encoder}
    {tok : Token} (he : s.expects = .operand i (.after g pre)) (h : step t s tok = .ok s') :
    ∃ k ∈ (Candidates.after g pre).expected, k.accepts tok.kind ∧
      s'.expects = operandsOf i (.after g (pre ++ [k])) := by
  rw [step_operand he, operand] at h
  split at h
  · cases h
  · next k hfind =>
    obtain ⟨hk, ha⟩ := Candidates.find?_expected_after.mp hfind
    obtain ⟨s₁, -, hok⟩ := bind_ok_iff.mp h
    cases hok
    exact ⟨k, hk, ha, by rw [Candidates.after_concat]; rfl⟩

/-- Operand tokens that are taken up to the end of a run begin with the tokens of a shape. -/
theorem exists_operands {g : Group} {i : Instruction} : ∀ {toks : List Token} {pre : List Class}
    {s s' : Encoder}, s.expects = operandsOf i (.after g pre) → run t s toks = .ok s' →
    s'.expects = .done →
    ∃ shape ∈ g.shapes, ∃ ks xs rest s₁, shape.classes = pre ++ ks ∧ toks = xs ++ rest ∧
      Class.Match ks xs ∧ s₁.expects = .close (some (i, shape)) ∧ run t s₁ rest = .ok s'
  | toks, pre, s, s', he, h, hd => by
    cases hc : (Candidates.after g pre).complete? with
    | some shape =>
      obtain ⟨hs, hcl⟩ := Candidates.complete?_after.mp hc
      exact ⟨shape, hs, [], [], toks, s, by simp [hcl], rfl, .nil, by simp [he, operandsOf, hc], h⟩
    | none =>
      have hexp : s.expects = .operand i (.after g pre) := by simp [he, operandsOf, hc]
      match toks with
      | [] =>
        cases h
        simp [hexp] at hd
      | tok :: toks =>
        rw [run_cons] at h
        obtain ⟨s₁, hstep, hrun⟩ := bind_ok_iff.mp h
        obtain ⟨k, -, ha, he₁⟩ := expects_of_step_operand hexp hstep
        obtain ⟨shape, hs, ks, xs, rest, s₂, hcl, rfl, hm, hclose, hrest⟩ :=
          exists_operands he₁ hrun hd
        exact ⟨shape, hs, k :: ks, tok :: xs, rest, s₂, by simp [hcl], rfl, .cons ha hm, hclose,
          hrest⟩

/-! ### Between items -/

/-- The encoder waits for an item, or for the end of a statement that it can settle. -/
inductive Waits (t : Table) (s : Encoder) (r : Replay) : Bool → Prop
  | item (he : s.expects = .item) (ht : s.Tracks r) : Waits t s r false
  | close {p : Option (Instruction × Shape)} {s₁ : Encoder} (he : s.expects = .close p)
    (hs : settle t s p = .ok s₁) (ht : s₁.Tracks r) : Waits t s r true

/-- The encoder stands between two items, with the marks of the line and the replay so far. -/
structure Boundary (t : Table) (s : Encoder) (k : Mark) (r : Replay) : Prop where
  labelled : s.labelled = k.labelled
  opened : s.opened = k.opened
  waits : Waits t s r k.pending

theorem boundary_start : Boundary t start .fresh .start :=
  ⟨rfl, rfl, .item rfl tracks_start⟩

/-- Settling replaces an opcode and leaves the rest. -/
theorem settle_keeps {s s₁ : Encoder} {p : Option (Instruction × Shape)}
    (h : settle t s p = .ok s₁) : s₁ = { s with image := s₁.image } := by
  unfold settle at h
  split at h
  · cases h; rfl
  · split at h
    · split at h
      · simp [fail] at h
      · cases h; rfl
    · cases h; rfl

/-- The end of a line and a comment are taken between any two items. -/
theorem Boundary.step_ends {s : Encoder} {k : Mark} {r : Replay} {tok : Token}
    (h : Boundary t s k r) (hk : tok.kind.endsStatement) :
    ∃ s₁, step t s tok = Encoder.item t s₁ tok ∧ s₁.Tracks r ∧ s₁.expects = .item ∧
      s₁.labelled = k.labelled ∧ s₁.opened = k.opened := by
  obtain ⟨hl, ho, hw⟩ := h
  generalize k.pending = pending at hw
  cases hw with
  | item he ht =>
    exact ⟨{ s with line := tok.line }, step_item he tok, ht, he, hl, ho⟩
  | @close p s₁ he hs ht =>
    refine ⟨{ s₁ with line := tok.line, expects := .item }, ?_, ht, rfl, ?_, ?_⟩
    · rw [step_close he, Encoder.close, if_pos hk, hs]; rfl
    · rw [settle_keeps hs]; exact hl
    · rw [settle_keeps hs]; exact ho

/-- Where no statement is left open, the next token starts an item. -/
theorem Boundary.step_starts {s : Encoder} {k : Mark} {r : Replay} (tok : Token)
    (h : Boundary t s k r) (hp : k.pending = false) :
    s.Tracks r ∧ s.expects = .item ∧
      step t s tok = Encoder.item t { s with line := tok.line } tok := by
  obtain ⟨-, -, hw⟩ := h
  rw [hp] at hw
  cases hw with
  | item he ht => exact ⟨ht, he, step_item he tok⟩

/-- Only a comment or the end of the line is taken after a statement. -/
theorem Boundary.pending_eq_false {s s' : Encoder} {k : Mark} {r : Replay} {tok : Token}
    {toks : List Token} (h : Boundary t s k r) (hk : tok.kind.endsStatement = false)
    (hok : run t s (tok :: toks) = .ok s') : k.pending = false := by
  obtain ⟨-, -, hw⟩ := h
  generalize k.pending = pending at hw
  cases hw with
  | item _ _ => rfl
  | close he _ _ =>
    rw [run_cons, step_close he, Encoder.close, hk] at hok
    simp [Except.bind] at hok

/-! ### One item -/

theorem run_singleton (s : Encoder) (tok : Token) : run t s [tok] = step t s tok := by
  rw [run_cons]
  cases step t s tok <;> rfl

/-- A label is taken if it may stand on the line and its name is allowed and new. -/
theorem label_eq_ok {s s' : Encoder} {name : String} :
    s.label name = .ok s' ↔
      Name.LabelAllowed name ∧ s.symbols.isDefined name = false ∧ s.labelled = false ∧
        s' = { s with symbols := s.symbols.define name s.image.cursor s.line, labelled := true } := by
  rw [Name.labelAllowed_iff, label]
  cases Text.isHexByte name <;> cases Name.refusedInLabel? name <;>
    cases s.symbols.isDefined name <;> cases s.labelled <;> simp [fail, eq_comm]

/-- A label is noted at the cursor. -/
theorem yields_label {s : Encoder} {r : Replay} (name : String) (ht : s.Tracks r) (hr : r.Sound)
    (hl : s.labelled = false) :
    Yields (s.label name) (r.item (.label name s.line)) fun s' =>
      s'.Tracks (r.item (.label name s.line)) ∧ s'.expects = s.expects ∧
        s'.labelled = true ∧ s'.opened = s.opened := by
  constructor
  · intro hs
    obtain ⟨hname, hnew⟩ := (Replay.sound_label_iff hr).mp hs
    exact ⟨_, label_eq_ok.mpr ⟨hname, by rw [ht.symbols]; exact hnew, hl, rfl⟩⟩
  · intro s' hok
    obtain ⟨hname, hnew, -, rfl⟩ := label_eq_ok.mp hok
    refine ⟨(Replay.sound_label_iff hr).mpr ⟨hname, by rw [← ht.symbols]; exact hnew⟩, ?_⟩
    refine ⟨⟨ht.cursor, ht.cells, ?_, ht.lines⟩, rfl, rfl, rfl⟩
    simp [Replay.item, ht.symbols, ht.cursor]

/-- A literal with bytes is written byte by byte. -/
theorem datum_eq {s : Encoder} {tok : Token} {bs : List UInt8} (h : tok.kind.datum? = some bs) :
    s.datum tok = s.writeAll bs >>= fun s' => .ok (s'.await (.close none)) := by
  have hone : ∀ b, s.writeAll [b] = s.write b := fun b => by
    simp only [writeAll, List.foldlM_cons, List.foldlM_nil]
    cases s.write b <;> rfl
  obtain ⟨kind, line, col⟩ := tok
  cases kind with
  | character raw =>
    simp only [Kind.datum?] at h
    cases hc : Literal.character raw with
    | error fault => simp [hc] at h
    | ok p =>
      simp only [hc, Option.ite_none_right_eq_some, Option.some.injEq] at h
      obtain ⟨hclose, rfl⟩ := h
      simp only [datum, characterDatum, hc, hclose, hone, if_true]
      cases s.write p.1 <;> rfl
  | string raw =>
    simp only [Kind.datum?] at h
    cases hc : Literal.string raw with
    | error fault => simp [hc, Except.toOption] at h
    | ok cs =>
      simp only [hc, Except.toOption, Option.some.injEq] at h
      simp only [datum, stringDatum, hc, h]
  | word w =>
    simp only [Kind.datum?, Option.map_eq_some_iff] at h
    obtain ⟨b, hb, rfl⟩ := h
    simp only [datum, hb, hone]
  | _ => simp [Kind.datum?, Kind.hex?] at h

/-- The literal of `DB` is placed byte by byte. -/
theorem yields_datum {s : Encoder} {r : Replay} {tok : Token} {bs : List UInt8}
    (h : tok.kind.datum? = some bs) (ht : s.Tracks r) (hr : r.Sound) (hl : s.line = tok.line) :
    Yields (s.datum tok) (r.emitAll (bs.map fun b => ⟨.byte b, tok.line⟩)) fun s' =>
      s'.Tracks (r.emitAll (bs.map fun b => ⟨.byte b, tok.line⟩)) ∧
        s'.expects = .close none ∧ s'.labelled = s.labelled ∧ s'.opened = s.opened := by
  rw [datum_eq h]
  refine (yields_writeAll bs ht hr hl).bind (.refl _) ?_
  rintro s' hr' ⟨ht', hk⟩
  exact yields_ok hr' ⟨ht', rfl, hk.labelled, hk.opened⟩

/-- What `DB` takes is a literal with bytes. -/
theorem datum?_isSome {s s' : Encoder} {tok : Token} (h : s.datum tok = .ok s') :
    ∃ bs, tok.kind.datum? = some bs := by
  obtain ⟨kind, line, col⟩ := tok
  cases kind with
  | character raw =>
    obtain ⟨s₁, h₁, -⟩ := bind_ok_iff.mp h
    simp only [characterDatum] at h₁
    split at h₁
    · simp [fail] at h₁
    · next b close hc =>
      obtain ⟨s₂, -, h₂⟩ := bind_ok_iff.mp h₁
      split at h₂
      · next hclose => exact ⟨[b], by simp [Kind.datum?, hc, hclose]⟩
      · simp [fail] at h₂
  | string raw =>
    obtain ⟨s₁, h₁, -⟩ := bind_ok_iff.mp h
    simp only [stringDatum] at h₁
    split at h₁
    · simp [fail] at h₁
    · next bs hc => exact ⟨bs, by simp [Kind.datum?, hc, Except.toOption]⟩
  | word w =>
    simp only [datum] at h
    split at h
    · next b hb => exact ⟨[b], by simp [Kind.datum?, hb]⟩
    · simp [bind, Except.bind] at h
  | _ => simp [datum, Kind.hex?, bind, Except.bind] at h

/-- A mnemonic of the table has a first row. -/
theorem exists_placeholder {m : String} {g : Group} (h : t.group? m = some g) :
    ∃ b, t.placeholder? m = some b := by
  unfold Table.group? at h
  split at h
  · next hany =>
    obtain ⟨row, hrow, hm⟩ := List.any_eq_true.mp hany
    obtain ⟨row', hrow'⟩ := Option.isSome_iff_exists.mp
      (List.find?_isSome.mpr ⟨row, hrow, hm⟩ : (t.rows.find? (·.mnemonic = m)).isSome)
    exact ⟨row'.opcode, by simp [Table.placeholder?, hrow']⟩
  · simp at h

theorem word_eq_mnemonic {s : Encoder} {m : String} (h : ¬IsDirective m) :
    word t s m = mnemonic t s m := by
  simp only [IsDirective, not_or] at h
  simp [word, h]

/-- The opcode of an instruction changes no address and no symbol. -/
theorem sound_opcode_iff {r : Replay} {b b' : UInt8} {line : Nat} {es : List Emission} :
    ((r.emit ⟨.byte b, line⟩).emitAll es).Sound ↔ ((r.emit ⟨.byte b', line⟩).emitAll es).Sound := by
  refine Replay.sound_congr ?_ (Replay.symbols_emitAll es _ _ rfl rfl)
  rw [Replay.placed_emitAll, Replay.placed_emitAll]
  simp [Replay.emit]

/-- Replacing the opcode in the image is replacing it in the replay. -/
theorem Tracks.patch {s : Encoder} {r : Replay} {b : UInt8} {line : Nat} {es : List Emission}
    (b' : UInt8) (h : s.Tracks ((r.emit ⟨.byte b, line⟩).emitAll es))
    (hr : ((r.emit ⟨.byte b, line⟩).emitAll es).Sound) :
    { s with image := s.image.patch r.cursor b' }.Tracks
      ((r.emit ⟨.byte b', line⟩).emitAll es) := by
  have hfree : r.at? r.cursor = none := by
    have hemit := hr.of_extends (Replay.extends_emitAll es _)
    exact ((Replay.sound_emit_iff (hemit.of_extends (Replay.extends_emit r _))).mp hemit).2.1
  have hat : ∀ b a, ((r.emit ⟨.byte b, line⟩).emitAll es).at? a = (r.at? a).or
      (if r.cursor = a then some ⟨⟨.byte b, line⟩, r.cursor⟩
        else (Replay.placeFrom (r.cursor + 1) es).find? (·.address = a)) := by
    intro b a
    rw [Replay.at?, Replay.at?, Replay.placed_emitAll, Replay.emit, List.append_assoc,
      List.find?_append, List.singleton_append, List.find?_cons]
    by_cases ha : r.cursor = a <;> simp [ha]
  refine ⟨?_, ?_, ?_, ?_⟩
  · rw [Image.cursor_patch, h.cursor, Replay.cursor_emitAll, Replay.cursor_emitAll]; rfl
  · intro a
    rw [Image.get?_patch, h.cells, h.cells, hat, hat, hat]
    by_cases ha : a = r.cursor
    · subst ha; simp [hfree, Value.draft]
    · simp [ha, Ne.symm ha]
  · exact h.symbols.trans (Replay.symbols_emitAll es _ _ rfl rfl)
  · intro a
    rw [h.lines, hat, hat]
    by_cases ha : r.cursor = a
    · subst ha; simp [hfree]
    · simp [ha]

/-- The tokens of an instruction are taken where no other instruction stands on the line. -/
theorem yields_instruction {s : Encoder} {r : Replay} {w : Token} {m : String} {g : Group}
    {shape : Shape} {opcode : UInt8} {toks : List Token} (hm : ¬IsDirective m)
    (hg : t.group? m = some g) (hs : shape ∈ g.shapes) (ho : t.opcodeFor? m g shape = some opcode)
    (hc : Class.Match shape.classes toks) (hline : s.line = w.line) (hopened : s.opened = false)
    (ht : s.Tracks r) (hr : r.Sound) :
    Yields (word t s m >>= fun s' => run t s' toks)
      ((r.emit ⟨.byte opcode, w.line⟩).emitAll (Class.emissions shape.classes toks)) fun s' =>
        s'.labelled = s.labelled ∧ s'.opened = true ∧
          Waits t s' ((r.emit ⟨.byte opcode, w.line⟩).emitAll
            (Class.emissions shape.classes toks)) true := by
  obtain ⟨first, hfirst⟩ := exists_placeholder hg
  have hword : word t s m = s.emit ⟨.byte first, w.line⟩ >>= fun s' =>
      .ok { s' with opened := true, expects := operandsOf ⟨m, g, s.image.cursor⟩ (.ofGroup g) } := by
    rw [word_eq_mnemonic hm]
    simp only [mnemonic, hg, hopened, hfirst]
    rfl
  have hopcode := (yields_emit (e := ⟨.byte first, w.line⟩) ht hr hline.symm)
  -- with the opcode of the first row in the place of the final one
  have hdraft : Yields (word t s m >>= fun s' => run t s' toks)
      ((r.emit ⟨.byte first, w.line⟩).emitAll (Class.emissions shape.classes toks)) fun s' =>
        s'.Tracks ((r.emit ⟨.byte first, w.line⟩).emitAll (Class.emissions shape.classes toks)) ∧
          s'.expects = .close (some (⟨m, g, s.image.cursor⟩, shape)) ∧
          s'.labelled = s.labelled ∧ s'.opened = true := by
    rw [hword, bind_assoc]
    refine hopcode.bind (Replay.extends_emitAll _ _) ?_
    rintro s' hr' ⟨ht', hk⟩
    refine (@yields_operands t g ⟨m, g, s.image.cursor⟩ shape hs _ _ hc []
      { s' with opened := true, expects := operandsOf ⟨m, g, s.image.cursor⟩ (.ofGroup g) } _ rfl rfl
      ht' hr').imp Iff.rfl ?_
    rintro s'' - ⟨ht'', he'', hl'', ho''⟩
    exact ⟨ht'', he'', hl''.trans hk.labelled, ho''⟩
  refine hdraft.imp sound_opcode_iff ?_
  rintro s' hr' ⟨ht', he', hl', ho'⟩
  refine ⟨hl', ho', ?_⟩
  unfold Table.opcodeFor? at ho
  split at ho
  · next hv =>
    refine .close he' (by simp only [settle, hv, if_true, ho]; rfl) ?_
    rw [ht.cursor]
    exact ht'.patch opcode hr'
  · next hv =>
    rw [hfirst, Option.some.injEq] at ho
    subst ho
    exact .close he' (by simp only [settle, hv]; rfl) ht'

/-- Between two items, taking the tokens of an item is replaying the item. -/
theorem Boundary.takes {s : Encoder} {k k' : Mark} {r : Replay} {i : Item} {xs : List Token}
    (h : Boundary t s k r) (hr : r.Sound) (hi : i.Spells t xs) (hk : k.next? i = some k') :
    Yields (run t s xs) (r.item i) fun s' => Boundary t s' k' (r.item i) := by
  cases hi with
  | @comment tok body hkind =>
    obtain ⟨s₁, hstep, ht, he, hl, ho⟩ := h.step_ends (by rw [hkind]; rfl)
    simp only [Mark.next?, Option.some.injEq] at hk
    subst hk
    rw [run_singleton, hstep, Encoder.item, hkind]
    exact yields_ok hr ⟨hl, ho, .item he ht⟩
  | @newline tok hkind =>
    obtain ⟨s₁, hstep, ht, he, -, -⟩ := h.step_ends (by rw [hkind]; rfl)
    simp only [Mark.next?, Option.some.injEq] at hk
    subst hk
    rw [run_singleton, hstep, Encoder.item, hkind]
    exact yields_ok hr ⟨rfl, rfl, .item he ht⟩
  | @label tok name hkind =>
    simp only [Mark.next?, Option.ite_none_left_eq_some, not_or, Bool.not_eq_true,
      Option.some.injEq] at hk
    obtain ⟨⟨hp, hlab⟩, rfl⟩ := hk
    obtain ⟨ht, he, hstep⟩ := h.step_starts tok hp
    rw [run_singleton, hstep, Encoder.item, hkind]
    refine (yields_label (s := { s with line := tok.line }) name ht hr
      (h.labelled.trans hlab)).imp Iff.rfl ?_
    rintro s' - ⟨ht', he', hl', ho'⟩
    refine ⟨hl', ho'.trans h.opened, ?_⟩
    dsimp only
    rw [hp]
    exact .item (he'.trans he) ht'
  | @origin w tok address hw hhex =>
    simp only [Mark.next?, Option.ite_none_left_eq_some, Bool.not_eq_true, Option.some.injEq] at hk
    obtain ⟨hp, rfl⟩ := hk
    obtain ⟨ht, -, hstep⟩ := h.step_starts w hp
    have hrun : run t s [w, tok] = .ok { s with
        line := tok.line, image := s.image.org address, expects := .close none } := by
      rw [run_cons, hstep, Encoder.item, hw]
      simp only [word, if_true, Except.bind, run_singleton]
      rw [step_origin rfl, Encoder.origin, hhex]
      rfl
    rw [hrun]
    have hsound : (r.item (.origin address)).Sound :=
      ⟨hr.inside, hr.once, hr.labels, hr.distinct, hr.operands⟩
    refine yields_ok hsound ⟨h.labelled, h.opened, ?_⟩
    exact .close rfl rfl ⟨rfl, ht.cells, ht.symbols, ht.lines⟩
  | @data w tok bs hw hbs =>
    simp only [Mark.next?, Option.ite_none_left_eq_some, Bool.not_eq_true, Option.some.injEq] at hk
    obtain ⟨hp, rfl⟩ := hk
    obtain ⟨ht, -, hstep⟩ := h.step_starts w hp
    have hrun : run t s [w, tok] =
        Encoder.datum { s with line := tok.line, expects := .datum } tok := by
      rw [run_cons, hstep, Encoder.item, hw]
      simp only [word, Except.bind, run_singleton]
      exact step_datum rfl tok
    rw [hrun]
    refine (yields_datum (s := { s with line := tok.line, expects := .datum }) hbs
      ht hr rfl).imp Iff.rfl ?_
    rintro s' - ⟨ht', he', hl', ho'⟩
    exact ⟨hl'.trans h.labelled, ho'.trans h.opened, .close he' rfl ht'⟩
  | @instruction w m g shape opcode toks hw hm hg hs ho hc =>
    simp only [Mark.next?, Option.ite_none_left_eq_some, not_or, Bool.not_eq_true,
      Option.some.injEq] at hk
    obtain ⟨⟨hp, hopen⟩, rfl⟩ := hk
    obtain ⟨ht, -, hstep⟩ := h.step_starts w hp
    rw [run_cons, hstep, Encoder.item, hw]
    refine (yields_instruction (s := { s with line := w.line }) hm hg hs ho hc rfl
      (h.opened.trans hopen) ht hr).imp Iff.rfl ?_
    rintro s' - ⟨hl', ho', hw'⟩
    exact ⟨hl'.trans h.labelled, ho', hw'⟩

/-- An item whose tokens are taken may stand where it stands. -/
theorem Boundary.exists_next {s s' : Encoder} {k : Mark} {r : Replay} {i : Item}
    {xs : List Token} (h : Boundary t s k r) (hi : i.Spells t xs) (hok : run t s xs = .ok s') :
    ∃ k', k.next? i = some k' := by
  cases hi with
  | comment _ => exact ⟨_, rfl⟩
  | newline _ => exact ⟨_, rfl⟩
  | @label tok name hkind =>
    have hp := h.pending_eq_false (by rw [hkind]; rfl) hok
    rw [run_singleton, (h.step_starts tok hp).2.2, Encoder.item, hkind] at hok
    have hlab : k.labelled = false := h.labelled ▸ (label_eq_ok.mp hok).2.2.1
    exact ⟨_, by simp only [Mark.next?, hp, hlab]; rfl⟩
  | @origin w tok address hw _ =>
    have hp := h.pending_eq_false (by rw [hw]; rfl) hok
    exact ⟨_, by simp only [Mark.next?, hp]; rfl⟩
  | @data w tok bs hw _ =>
    have hp := h.pending_eq_false (by rw [hw]; rfl) hok
    exact ⟨_, by simp only [Mark.next?, hp]; rfl⟩
  | @instruction w m g shape opcode toks hw hm hg _ _ _ =>
    have hp := h.pending_eq_false (by rw [hw]; rfl) hok
    have hopen : k.opened = false := by
      rw [run_cons, (h.step_starts w hp).2.2, Encoder.item, hw] at hok
      simp only [word_eq_mnemonic hm, mnemonic, hg, h.opened] at hok
      by_contra hne
      rw [Bool.not_eq_false] at hne
      simp [hne, fail, Except.bind] at hok
    exact ⟨_, by simp only [Mark.next?, hp, hopen]; rfl⟩

/-- A statement is settled only with an opcode that the table has. -/
theorem exists_opcode_of_settle {s s' : Encoder} {i : Instruction} {shape : Shape} {first : UInt8}
    (hfirst : t.placeholder? i.mnemonic = some first)
    (h : settle t s (some (i, shape)) = .ok s') :
    ∃ opcode, t.opcodeFor? i.mnemonic i.group shape = some opcode := by
  unfold settle at h
  unfold Table.opcodeFor?
  dsimp only at h
  split at h
  · next hv =>
    rw [if_pos hv]
    split at h
    · simp [fail] at h
    · next opcode ho => exact ⟨opcode, ho⟩
  · next hv =>
    rw [if_neg hv]
    exact ⟨first, hfirst⟩

/-- A word that starts no `END` and is taken up to the end of a run starts a statement. -/
theorem exists_statement {s s₁ s' : Encoder} {tok : Token} {toks : List Token} {w : String}
    (hkind : tok.kind = .word w) (hend : w ≠ endMnemonic) (hword : word t s w = .ok s₁)
    (hrun : run t s₁ toks = .ok s') (hd : s'.expects = .done) :
    ∃ i xs rest, toks = xs ++ rest ∧ Item.Spells t i (tok :: xs) := by
  by_cases horg : w = "ORG"
  · subst horg
    cases hword
    cases toks with
    | nil => cases hrun; simp [await] at hd
    | cons arg toks =>
      rw [run_cons, step_origin rfl, Encoder.origin] at hrun
      cases hhex : arg.kind.hex? with
      | none => simp [hhex, Except.bind] at hrun
      | some address => exact ⟨_, [arg], toks, rfl, .origin hkind hhex⟩
  by_cases hdb : w = "DB"
  · subst hdb
    cases hword
    cases toks with
    | nil => cases hrun; simp [await] at hd
    | cons arg toks =>
      rw [run_cons, step_datum rfl] at hrun
      obtain ⟨s₂, hdatum, -⟩ := bind_ok_iff.mp hrun
      obtain ⟨bs, hbs⟩ := datum?_isSome hdatum
      exact ⟨_, [arg], toks, rfl, .data hkind hbs⟩
  have hm : ¬IsDirective w := by simp [IsDirective, horg, hdb, hend]
  rw [word_eq_mnemonic hm] at hword
  unfold mnemonic at hword
  split at hword
  · simp [fail] at hword
  next g hg =>
  split at hword
  · simp [fail] at hword
  split at hword
  · simp [fail] at hword
  next first hfirst =>
  obtain ⟨s₂, -, hs₂⟩ := bind_ok_iff.mp hword
  simp only [Except.ok.injEq] at hs₂
  obtain ⟨shape, hs, ks, xs, rest, s₃, hcl, rfl, hmatch, hclose, hrest⟩ :=
    @exists_operands t g _ _ [] _ _ (by rw [← hs₂]; rfl) hrun hd
  rw [List.nil_append] at hcl
  subst hcl
  -- the token after the operands settles the opcode, so the table has it
  obtain ⟨opcode, ho⟩ : ∃ opcode, t.opcodeFor? w g shape = some opcode := by
    cases rest with
    | nil => cases hrest; simp [hclose] at hd
    | cons after rest =>
      rw [run_cons, step_close hclose, Encoder.close] at hrest
      obtain ⟨s₄, hstep, -⟩ := bind_ok_iff.mp hrest
      split at hstep
      · obtain ⟨s₅, hsettle, -⟩ := bind_ok_iff.mp hstep
        exact exists_opcode_of_settle hfirst hsettle
      · simp at hstep
  exact ⟨_, xs, rest, rfl, .instruction hkind hm hg hs ho hmatch⟩

/-! ### Runs -/

theorem run_done {s : Encoder} (he : s.expects = .done) : ∀ toks : List Token, run t s toks = .ok s
  | [] => rfl
  | tok :: toks => by rw [run_cons, step_done he]; exact run_done he toks

/-- `END` places its opcode, and nothing after it is looked at. -/
theorem Boundary.yields_end {s : Encoder} {k : Mark} {r : Replay} {last : Token}
    (h : Boundary t s k r) (hr : r.Sound) (hp : k.pending = false)
    (hlast : last.kind = .word endMnemonic) (rest : List Token) :
    Yields (run t s (last :: rest)) (r.emit (t.ending last.line)) fun s' =>
      s'.Tracks (r.emit (t.ending last.line)) ∧ s'.expects = .done := by
  obtain ⟨ht, -, hstep⟩ := h.step_starts last hp
  have hrun : run t s (last :: rest) =
      Encoder.emit { s with line := last.line } (t.ending last.line) >>= fun s' =>
        .ok (s'.await .done) := by
    rw [run_cons, hstep, Encoder.item, hlast]
    simp only [word, endProgram]
    dsimp only [emit, Table.ending]
    cases Encoder.write { s with line := last.line } _ with
    | error d => rfl
    | ok s' => exact run_done rfl rest
  rw [hrun]
  refine (yields_emit (s := { s with line := last.line }) ht hr rfl).bind (.refl _) ?_
  rintro s' hr' ⟨ht', -⟩
  exact yields_ok hr' ⟨ht', rfl⟩

/-- A run that comes to its end starts with `END` or with the tokens of an item. -/
theorem Boundary.exists_item {s s' : Encoder} {k : Mark} {r : Replay} {toks : List Token}
    (h : Boundary t s k r) (hok : run t s toks = .ok s') (hd : s'.expects = .done) :
    (∃ last rest, toks = last :: rest ∧ last.kind = .word endMnemonic) ∨
      ∃ i xs rest, toks = xs ++ rest ∧ xs ≠ [] ∧ Item.Spells t i xs := by
  match toks with
  | [] =>
    cases hok
    obtain ⟨-, -, hw⟩ := h
    generalize k.pending = pending at hw
    cases hw with
    | item he _ => simp [he] at hd
    | close he _ _ => simp [he] at hd
  | tok :: toks =>
    cases hends : tok.kind.endsStatement with
    | true =>
      refine .inr ?_
      cases hkind : tok.kind <;> simp [hkind, Kind.endsStatement] at hends
      · exact ⟨.comment, [tok], toks, rfl, by simp, .comment hkind⟩
      · exact ⟨.newline, [tok], toks, rfl, by simp, .newline hkind⟩
    | false =>
      have hp := h.pending_eq_false hends hok
      rw [run_cons, (h.step_starts tok hp).2.2] at hok
      obtain ⟨s₁, hitem, hrun⟩ := bind_ok_iff.mp hok
      cases hkind : tok.kind with
      | label name => exact .inr ⟨_, [tok], toks, rfl, by simp, .label hkind⟩
      | word w =>
        rw [Encoder.item, hkind] at hitem
        by_cases hend : w = endMnemonic
        · exact .inl ⟨tok, toks, rfl, by rw [hkind, hend]⟩
        · obtain ⟨i, xs, rest, hxs, hi⟩ := exists_statement hkind hend hitem hrun hd
          exact .inr ⟨i, tok :: xs, rest, by rw [hxs]; rfl, by simp, hi⟩
      | newline => simp [hkind, Kind.endsStatement] at hends
      | comment body => simp [hkind, Kind.endsStatement] at hends
      | _ => simp [Encoder.item, hkind, fail] at hitem

/-- Cutting off one item after the other, a run that comes to its end reads as items up to `END`,
and does what their replay says. -/
theorem Boundary.reads {s s' : Encoder} {k : Mark} {r : Replay} {toks : List Token}
    (h : Boundary t s k r) (hr : r.Sound) (hok : run t s toks = .ok s')
    (hd : s'.expects = .done) :
    ∃ is xs last rest k', toks = xs ++ last :: rest ∧ Spell t is xs ∧ k.after? is = some k' ∧
      k'.pending = false ∧ last.kind = .word endMnemonic ∧
      ((r.items is).emit (t.ending last.line)).Sound ∧
      s'.Tracks ((r.items is).emit (t.ending last.line)) := by
  rcases h.exists_item hok hd with ⟨last, rest, rfl, hlast⟩ | ⟨i, xs, rest, rfl, hne, hi⟩
  · have hp := h.pending_eq_false (by rw [hlast]; rfl) hok
    obtain ⟨hsound, ht, -⟩ := (h.yields_end hr hp hlast rest).of_ok s' hok
    exact ⟨[], [], last, rest, k, rfl, .nil, rfl, hp, hlast, hsound, ht⟩
  · rw [run_append] at hok
    obtain ⟨s₁, hxs, hrest⟩ := bind_ok_iff.mp hok
    obtain ⟨k₁, hk₁⟩ := h.exists_next hi hxs
    obtain ⟨hr₁, h₁⟩ := (h.takes hr hi hk₁).of_ok s₁ hxs
    have hlt : rest.length < (xs ++ rest).length := by
      rw [List.length_append]
      have := List.length_pos_iff.mpr hne
      omega
    obtain ⟨is, ys, last, rest', k', rfl, hsp, hk', hp, hlast, hsound, ht⟩ :=
      h₁.reads hr₁ hrest hd
    exact ⟨i :: is, xs ++ ys, last, rest', k', by simp, .cons hi hsp, by simp [hk₁, hk'], hp, hlast,
      hsound, ht⟩
termination_by toks.length

/-- Items that may stand in this order are taken if their replay obeys the rules. -/
theorem Boundary.accepts {is : List Item} {xs : List Token} (hsp : Spell t is xs)
    (rest : List Token) : ∀ {s : Encoder} {k k' : Mark} {r : Replay} {last : Token},
      Boundary t s k r → k.after? is = some k' → k'.pending = false →
      last.kind = .word endMnemonic → ((r.items is).emit (t.ending last.line)).Sound →
      ∃ s', run t s (xs ++ last :: rest) = .ok s' ∧ s'.expects = .done := by
  induction hsp with
  | nil =>
    intro s k k' r last h hk hp hlast hsound
    cases hk
    have hr := hsound.of_extends (Replay.extends_emit r _)
    have hend := h.yields_end hr hp hlast rest
    obtain ⟨s', hs'⟩ := hend.ok hsound
    exact ⟨s', hs', (hend.of_ok s' hs').2.2⟩
  | @cons i is xs ys hi _ ih =>
    intro s k k' r last h hk hp hlast hsound
    rw [Mark.after?_cons] at hk
    obtain ⟨k₁, hk₁, hk⟩ := Option.bind_eq_some_iff.mp hk
    have hr₁ : (r.item i).Sound :=
      (hsound.of_extends (Replay.extends_emit _ _)).of_extends (Replay.extends_items is _)
    have hitem := h.takes (hr₁.of_extends (Replay.extends_item r i)) hi hk₁
    obtain ⟨s₁, hs₁⟩ := hitem.ok hr₁
    obtain ⟨s', hs', hd⟩ := ih (hitem.of_ok s₁ hs₁).2 hk hp hlast hsound
    refine ⟨s', ?_, hd⟩
    rw [List.append_assoc, run_append]
    exact bind_ok_iff.mpr ⟨s₁, hs₁, hs'⟩

end Encoder

/-! ### The first pass -/

/-- The replay of a whole program, with the byte of `END` on the given line. -/
def Replay.program (t : Table) (is : List Item) (line : Nat) : Replay :=
  (start.items is).emit (t.ending line)

theorem Replay.reached_program (t : Table) (is : List Item) (line : Nat) :
    (program t is line).Reached :=
  (reached_start.items is).emit _

/-- The first pass succeeds when the run has come to `END`. -/
theorem encode_eq_ok {t : Table} {toks : List Token} {e : Encoded} :
    encode t toks = .ok e ↔ ∃ s, Encoder.run t .start toks = .ok s ∧ s.expects = .done ∧
      e = ⟨s.image, s.symbols, s.lines⟩ := by
  rw [encode, bind_ok_iff]
  refine exists_congr fun s => and_congr_right fun _ => ?_
  unfold Encoder.finish
  split
  · next he => simp [he, eq_comm]
  · next he =>
    refine iff_of_false ?_ (fun h => he h.1)
    rw [bind_ok_iff]
    rintro ⟨s', -, hfail⟩
    simp [Encoder.fail] at hfail

/-- What the first pass accepts reads as items whose replay obeys the rules, and the outcome is that
of the replay. -/
theorem encode_reading {t : Table} {toks : List Token} {e : Encoded} (h : encode t toks = .ok e) :
    ∃ is last, Reading t toks is last ∧ (Replay.program t is last.line).Sound ∧
      (Replay.program t is last.line).Fits e.image e.symbols e.lines := by
  obtain ⟨s, hrun, hd, rfl⟩ := encode_eq_ok.mp h
  obtain ⟨is, xs, last, rest, k, htoks, hsp, hk, hp, hlast, hsound, ht⟩ :=
    Encoder.boundary_start.reads Replay.sound_start hrun hd
  exact ⟨is, last, ⟨⟨xs, rest, htoks, hsp⟩, ⟨k, hk, hp⟩, hlast⟩, hsound, ht⟩

/-- The first pass accepts tokens that read as items whose replay obeys the rules. -/
theorem exists_encode {t : Table} {toks : List Token} {is : List Item} {last : Token}
    (h : Reading t toks is last) (hr : (Replay.program t is last.line).Sound) :
    ∃ e, encode t toks = .ok e := by
  obtain ⟨⟨xs, rest, rfl, hsp⟩, ⟨k, hk, hp⟩, hlast⟩ := h
  obtain ⟨s, hrun, hd⟩ :=
    Encoder.Boundary.accepts hsp rest Encoder.boundary_start hk hp hlast hr
  exact ⟨_, encode_eq_ok.mpr ⟨s, hrun, hd, rfl⟩⟩

end Asm8
