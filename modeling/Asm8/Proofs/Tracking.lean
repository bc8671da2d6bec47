import Asm8.Proofs.Replay

/-!
The encoder writes what the replay places.

`Replay.Fits` ties an image with its symbols and lines to a replay: same cursor, same symbols, and each
written cell holds the byte before linking and the line of the byte placed there. A state of the
encoder that fits `Tracks` the replay. `Yields` ties a step to a
replay: the step succeeds exactly when the replay obeys the rules, so that one statement says both
what is accepted and what is written. Steps in a row are joined by `Yields.bind`.
-/

namespace Asm8

/-- A chain of two steps succeeds when both of them do. -/
theorem bind_ok_iff {ε σ τ : Type} {step : Except ε σ} {next : σ → Except ε τ} {final : τ} :
    step >>= next = .ok final ↔ ∃ mid, step = .ok mid ∧ next mid = .ok final := by
  cases step <;> simp [bind, Except.bind]

/-- There is room at the cursor if it stands on an empty cell. -/
theorem Image.exists_write_iff {m : Image} {b : UInt8} :
    (∃ r, m.write b = .ok r) ↔ m.cursor < 256 ∧ m.get? m.cursor = none := by
  constructor
  · rintro ⟨r, h⟩
    refine ⟨?_, ?_⟩
    · by_contra hlt
      rw [write_eq_full_iff.mpr (by omega)] at h
      simp at h
    · by_contra hne
      rw [write_eq_taken_iff.mpr ⟨rfl, Option.isSome_iff_ne_none.mpr hne⟩] at h
      simp at h
  · rintro ⟨hlt, hfree⟩
    cases h : m.write b with
    | ok r => exact ⟨r, rfl⟩
    | error fault =>
      cases fault with
      | full => exact absurd (write_eq_full_iff.mp h) (by omega)
      | taken a => exact absurd (write_eq_taken_iff.mp h).2 (by simp [hfree])

/-- An image, symbols and lines are those of a replay, before linking. -/
structure Replay.Fits (r : Replay) (m : Image) (ss : Symbols) (lines : Vector (Option Nat) 256) :
    Prop where
  cursor : m.cursor = r.cursor
  cells : ∀ a, m.get? a = (r.at? a).map fun p => p.value.draft p.address
  symbols : ss = r.symbols
  lines : ∀ a, lines[a]?.join = (r.at? a).map fun p => p.line

/-- A placed byte stands in the image at its address, a symbol as the address itself. -/
theorem Replay.Fits.get?_address {r : Replay} {m : Image} {ss : Symbols}
    {lines : Vector (Option Nat) 256} (h : r.Fits m ss lines) (hr : r.Sound) {p : Placed}
    (hp : p ∈ r.placed) : m.get? p.address = some (p.value.draft p.address) := by
  rw [h.cells, hr.at?_address hp]
  rfl

namespace Encoder

/-- A write changes the image, and notes its line at the cursor. -/
theorem write_eq_ok {s s' : Encoder} {b : UInt8} :
    s.write b = .ok s' ↔ ∃ image, s.image.write b = .ok (s.image.cursor, image) ∧
      s' = { s with image, lines := s.lines.setIfInBounds s.image.cursor (some s.line) } := by
  unfold write
  cases hwrite : s.image.write b with
  | error fault => simp [fail]
  | ok r =>
    obtain ⟨address, image⟩ := r
    obtain rfl := (Image.cursor_write hwrite).1
    simp [eq_comm]

/-! ### States and replays -/

/-- The encoder has done what the replay says. -/
def Tracks (s : Encoder) (r : Replay) : Prop :=
  r.Fits s.image s.symbols s.lines

theorem tracks_start : start.Tracks .start where
  cursor := rfl
  cells a := by simp [start, Replay.at?, Replay.start]
  symbols := rfl
  lines a := by by_cases h : a < 256 <;> simp [start, Replay.at?, Replay.start, h]

/-- The parts of the state that writing leaves alone. -/
structure Keeps (s s' : Encoder) : Prop where
  line : s'.line = s.line
  labelled : s'.labelled = s.labelled
  opened : s'.opened = s.opened
  expects : s'.expects = s.expects

theorem Keeps.refl (s : Encoder) : s.Keeps s := ⟨rfl, rfl, rfl, rfl⟩

theorem Keeps.trans {s s' s'' : Encoder} (h : s.Keeps s') (h' : s'.Keeps s'') : s.Keeps s'' :=
  ⟨h'.line.trans h.line, h'.labelled.trans h.labelled, h'.opened.trans h.opened,
    h'.expects.trans h.expects⟩

/-- A byte written at the cursor is a byte placed at the cursor. -/
theorem Tracks.place {s s' : Encoder} {r : Replay} {e : Emission} (h : s.Tracks r)
    (hl : e.line = s.line) (hw : s.write (e.value.draft r.cursor) = .ok s') :
    { s' with symbols := (r.emit e).symbols }.Tracks (r.emit e) := by
  obtain ⟨image, himage, rfl⟩ := write_eq_ok.mp hw
  obtain ⟨hlt, hfree⟩ := Image.exists_write_iff.mp ⟨_, himage⟩
  have hat : r.at? r.cursor = none := by simpa [h.cells, h.cursor] using hfree
  refine ⟨?_, ?_, rfl, ?_⟩
  · rw [(Image.cursor_write himage).2, h.cursor]; rfl
  · intro a
    rw [Image.get?_write himage, Replay.at?_emit, h.cursor, h.cells]
    by_cases ha : a = r.cursor
    · subst ha; simp [hat]
    · simp [ha, Ne.symm ha]
  · intro a
    rw [Replay.at?_emit]
    by_cases ha : a = r.cursor
    · subst ha
      rw [h.cursor] at hlt
      simp [hat, h.cursor, hlt, hl]
    · have hne : s.image.cursor ≠ a := by rw [h.cursor]; exact Ne.symm ha
      simp [hne, Ne.symm ha, h.lines]

/-! ### Steps and replays -/

/-- The step succeeds exactly when the replay obeys the rules, and then it reaches such a state. -/
structure Yields (x : Except Diagnostic Encoder) (r : Replay) (P : Encoder → Prop) : Prop where
  ok : r.Sound → ∃ s, x = .ok s
  of_ok : ∀ s, x = .ok s → r.Sound ∧ P s

theorem yields_ok {s : Encoder} {r : Replay} {P : Encoder → Prop} (hr : r.Sound) (hp : P s) :
    Yields (.ok s) r P :=
  ⟨fun _ => ⟨s, rfl⟩, fun s' h => ⟨hr, by cases h; exact hp⟩⟩

/-- One step after the other. The second one may rely on what the first one reaches. -/
theorem Yields.bind {x : Except Diagnostic Encoder} {f : Encoder → Except Diagnostic Encoder}
    {r r' : Replay} {P Q : Encoder → Prop} (hx : Yields x r P) (hr : r.Extends r')
    (hf : ∀ s, r.Sound → P s → Yields (f s) r' Q) : Yields (x >>= f) r' Q := by
  constructor
  · intro hr'
    obtain ⟨s, hs⟩ := hx.ok (hr'.of_extends hr)
    obtain ⟨hsound, hp⟩ := hx.of_ok s hs
    obtain ⟨s', hs'⟩ := (hf s hsound hp).ok hr'
    exact ⟨s', bind_ok_iff.mpr ⟨s, hs, hs'⟩⟩
  · intro s' h
    obtain ⟨s, hs, hs'⟩ := bind_ok_iff.mp h
    obtain ⟨hsound, hp⟩ := hx.of_ok s hs
    exact (hf s hsound hp).of_ok s' hs'

theorem Yields.imp {x : Except Diagnostic Encoder} {r r' : Replay} {P Q : Encoder → Prop}
    (hx : Yields x r P) (hr : r.Sound ↔ r'.Sound) (hq : ∀ s, r.Sound → P s → Q s) :
    Yields x r' Q :=
  ⟨fun h => hx.ok (hr.mpr h), fun s h =>
    let ⟨hsound, hp⟩ := hx.of_ok s h
    ⟨hr.mp hsound, hq s hsound hp⟩⟩

/-! ### Writing -/

/-- A byte of a statement is written by the step that its value asks for. -/
def emit (s : Encoder) (e : Emission) : Except Diagnostic Encoder :=
  match e.value with
  | .byte b => s.write b
  | .symbol name mode => s.symbol name mode

theorem exists_write_iff {s : Encoder} {r : Replay} {b : UInt8} (h : s.Tracks r) :
    (∃ s', s.write b = .ok s') ↔ r.cursor < 256 ∧ r.at? r.cursor = none := by
  have hget : s.image.get? s.image.cursor = none ↔ r.at? r.cursor = none := by
    rw [h.cells, h.cursor, Option.map_eq_none_iff]
  rw [← hget, ← h.cursor, ← Image.exists_write_iff (b := b)]
  simp only [write_eq_ok]
  constructor
  · rintro ⟨_, image, hi, -⟩
    exact ⟨_, hi⟩
  · rintro ⟨⟨address, image⟩, hi⟩
    obtain rfl := (Image.cursor_write hi).1
    exact ⟨_, image, hi, rfl⟩

/-- Writing a byte is placing it. -/
theorem yields_emit {s : Encoder} {r : Replay} {e : Emission} (h : s.Tracks r) (hr : r.Sound)
    (hl : e.line = s.line) :
    Yields (s.emit e) (r.emit e) fun s' => s'.Tracks (r.emit e) ∧ s.Keeps s' := by
  obtain ⟨value, line⟩ := e
  cases value with
  | byte b =>
    constructor
    · intro hs
      obtain ⟨hlt, hfree, -⟩ := (Replay.sound_emit_iff hr).mp hs
      exact (exists_write_iff h).mpr ⟨hlt, hfree⟩
    · intro s' hw
      obtain ⟨hlt, hfree⟩ := (exists_write_iff h).mp ⟨s', hw⟩
      refine ⟨(Replay.sound_emit_iff hr).mpr ⟨hlt, hfree, trivial⟩, ?_⟩
      have htr := h.place hl hw
      obtain ⟨image, -, rfl⟩ := write_eq_ok.mp hw
      exact ⟨⟨htr.cursor, htr.cells, h.symbols, htr.lines⟩, rfl, rfl, rfl, rfl⟩
  | symbol name mode =>
    have hname := @Name.symbolAllowed_iff name
    constructor
    · intro hs
      obtain ⟨hlt, hfree, hn⟩ := (Replay.sound_emit_iff hr).mp hs
      obtain ⟨hhex, hchars⟩ := hname.mp hn
      obtain ⟨s', hw⟩ := (exists_write_iff (b := UInt8.ofNat s.image.cursor) h).mpr ⟨hlt, hfree⟩
      exact ⟨_, by simp only [emit, symbol, hhex, hchars, hw]; rfl⟩
    · intro s'' hw
      simp only [emit, symbol] at hw
      split at hw
      · simp [fail] at hw
      · next hhex =>
        split at hw
        · simp [fail] at hw
        · next hchars =>
          obtain ⟨s', hw, hok⟩ := bind_ok_iff.mp hw
          obtain ⟨hlt, hfree⟩ := (exists_write_iff h).mp ⟨s', hw⟩
          have hn := hname.mpr ⟨by simpa using hhex, hchars⟩
          refine ⟨(Replay.sound_emit_iff hr).mpr ⟨hlt, hfree, hn⟩, ?_⟩
          have htr := h.place hl (by rw [h.cursor] at hw; exact hw)
          obtain ⟨image, -, rfl⟩ := write_eq_ok.mp hw
          simp only [Except.ok.injEq] at hok
          subst hok
          have hline : line = s.line := hl
          refine ⟨⟨htr.cursor, htr.cells, ?_, htr.lines⟩, rfl, rfl, rfl, rfl⟩
          simp [Replay.emit, h.symbols, h.cursor, hline]

/-- Writing the bytes of a literal is placing them. -/
theorem yields_writeAll : ∀ (bs : List UInt8) {s : Encoder} {r : Replay} {line : Nat},
    s.Tracks r → r.Sound → s.line = line →
    Yields (s.writeAll bs) (r.emitAll (bs.map fun b => ⟨.byte b, line⟩)) fun s' =>
      s'.Tracks (r.emitAll (bs.map fun b => ⟨.byte b, line⟩)) ∧ s.Keeps s'
  | [], s, _, _, h, hr, _ => yields_ok hr ⟨h, .refl s⟩
  | b :: bs, s, r, line, h, hr, hl => by
    have hemit := yields_emit (e := ⟨.byte b, line⟩) h hr hl.symm
    refine hemit.bind (Replay.extends_emitAll _ _) ?_
    rintro s' hr' ⟨h', hk⟩
    refine (yields_writeAll bs h' hr' (hk.line.trans hl)).imp Iff.rfl ?_
    rintro s'' - ⟨h'', hk'⟩
    exact ⟨h'', hk.trans hk'⟩

/-- The byte of an operand token is placed if the token asks for one. -/
theorem yields_operandByte {s : Encoder} {r : Replay} (k : Class) {tok : Token} (h : s.Tracks r)
    (hr : r.Sound) (hl : s.line = tok.line) :
    Yields (s.operandByte k tok.kind) (r.emitAll (k.emission? tok).toList) fun s' =>
      s'.Tracks (r.emitAll (k.emission? tok).toList) ∧ s.Keeps s' := by
  have hemit : ∀ value, Yields (s.emit ⟨value, tok.line⟩) (r.emit ⟨value, tok.line⟩) _ :=
    fun value => yields_emit h hr hl.symm
  cases k with
  | hex =>
    simp only [operandByte, Class.emission?]
    cases tok.kind.hex? with
    | none => exact yields_ok hr ⟨h, .refl s⟩
    | some b => exact hemit (.byte b)
  | register =>
    simp only [operandByte, Class.emission?]
    cases tok.kind.register? with
    | none => exact yields_ok hr ⟨h, .refl s⟩
    | some g => exact hemit (.byte g.code)
  | offset => exact hemit (.symbol tok.kind.spelling .relative)
  | absolute => exact hemit (.symbol tok.kind.spelling .absolute)
  | openBracket => exact yields_ok hr ⟨h, .refl s⟩
  | closeBracket => exact yields_ok hr ⟨h, .refl s⟩
  | comma => exact yields_ok hr ⟨h, .refl s⟩

end Encoder

end Asm8
