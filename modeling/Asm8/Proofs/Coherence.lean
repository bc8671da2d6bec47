import Asm8.Proofs.References

/-!
Image, lines and symbols belong together.

A byte, its line and the reference that stands on it are written at different moments, and an opcode
is replaced only when its statement is closed. What a step of the encoder may do to them is said
once: written cells stay written, and new references and new opcodes stand on cells that were empty
(`Encoder.Advances`). So an open instruction has its opcode on a written cell, apart from all
references (`Encoder.Reserved`), all along a run:

    mnemonic   operand   operand   close
    opcode ─── empty ─── empty
    opcode ─── symbol ── empty                 a reference on its own cell
    opcode ─── symbol ── byte ──── opcode'     replaced where it was written

After the first pass the parts agree as `Encoded.Coherent` says, and linking that succeeds changes
no byte but those of references (`Encoded.Linked`).
-/

namespace Asm8

/-- The instruction whose opcode is written and may still be replaced. -/
def Expectation.instruction? : Expectation → Option Instruction
  | .operand i _ => some i
  | .close (some (i, _)) => some i
  | .item | .origin | .datum | .close none | .done => none

namespace Encoder

variable {t : Table} {s s' s'' : Encoder}

@[simp] theorem instruction?_operandsOf (i : Instruction) (live : Candidates) :
    (operandsOf i live).instruction? = some i := by
  unfold operandsOf
  split <;> rfl

/-! ### Cells that stay written -/

/-- Cells stay written, and a new reference stands on a cell that was empty and is written now. -/
structure Grows (s s' : Encoder) : Prop where
  written : ∀ a, (s.image.get? a).isSome → (s'.image.get? a).isSome
  uses : ∀ u ∈ s'.symbols.uses, u ∈ s.symbols.uses ∨
    s.image.get? u.address = none ∧ (s'.image.get? u.address).isSome

theorem Grows.refl (s : Encoder) : s.Grows s :=
  ⟨fun _ h => h, fun _ h => .inl h⟩

theorem Grows.empty (h : s.Grows s') {a : Nat} (ha : s'.image.get? a = none) :
    s.image.get? a = none := by
  by_contra hne
  have hsome := h.written a (Option.isSome_iff_ne_none.mpr hne)
  simp [ha] at hsome

theorem Grows.trans (h : s.Grows s') (h' : s'.Grows s'') : s.Grows s'' := by
  refine ⟨fun a ha => h'.written a (h.written a ha), ?_⟩
  intro u hu
  rcases h'.uses u hu with hu | ⟨hempty, hwritten⟩
  · rcases h.uses u hu with hu | ⟨hempty, hwritten⟩
    · exact .inl hu
    · exact .inr ⟨hempty, h'.written _ hwritten⟩
  · exact .inr ⟨h.empty hempty, hwritten⟩

theorem Grows.await (h : s.Grows s') (e : Expectation) : s.Grows (s'.await e) :=
  ⟨h.written, h.uses⟩

/-- Where only cells are added, references stay as they are. -/
theorem grows_of_symbols (hw : ∀ a, (s.image.get? a).isSome → (s'.image.get? a).isSome)
    (hs : s'.symbols.uses = s.symbols.uses) : s.Grows s' :=
  ⟨hw, fun _ hu => .inl (hs ▸ hu)⟩

theorem grows_write {b : UInt8} (h : s.write b = .ok s') :
    s.Grows s' ∧ s.image.get? s.image.cursor = none ∧ (s'.image.get? s.image.cursor).isSome ∧
      s'.symbols = s.symbols := by
  obtain ⟨image, himage, rfl⟩ := write_eq_ok.mp h
  have hget := Image.get?_write himage
  refine ⟨grows_of_symbols ?_ rfl, (Image.exists_write_iff.mp ⟨_, himage⟩).2, ?_, rfl⟩
  · intro a ha
    rw [hget]
    split <;> simp [ha]
  · rw [hget]
    simp

theorem grows_writeAll : ∀ {bs : List UInt8} {s s' : Encoder}, s.writeAll bs = .ok s' → s.Grows s'
  | [], s, _, h => by cases h; exact .refl s
  | b :: bs, s, s', h => by
    obtain ⟨s₁, hwrite, hrest⟩ := bind_ok_iff.mp h
    exact (grows_write hwrite).1.trans (grows_writeAll hrest)

theorem grows_symbol {name : String} {mode : Mode} (h : s.symbol name mode = .ok s') :
    s.Grows s' := by
  unfold symbol at h
  split at h
  · simp [fail] at h
  split at h
  · simp [fail] at h
  obtain ⟨s₁, hwrite, hok⟩ := bind_ok_iff.mp h
  cases hok
  obtain ⟨hgrows, hempty, hwritten, hsymbols⟩ := grows_write hwrite
  refine ⟨hgrows.written, ?_⟩
  intro u hu
  rw [hsymbols, Symbols.uses_refer, List.mem_append, List.mem_singleton] at hu
  rcases hu with hu | rfl
  · exact .inl hu
  · exact .inr ⟨hempty, hwritten⟩

theorem grows_operandByte {k : Class} {kind : Kind} (h : s.operandByte k kind = .ok s') :
    s.Grows s' := by
  cases k with
  | hex =>
    simp only [operandByte] at h
    split at h
    · exact (grows_write h).1
    · cases h; exact .refl s
  | register =>
    simp only [operandByte] at h
    split at h
    · exact (grows_write h).1
    · cases h; exact .refl s
  | offset => exact grows_symbol h
  | absolute => exact grows_symbol h
  | openBracket => cases h; exact .refl s
  | closeBracket => cases h; exact .refl s
  | comma => cases h; exact .refl s

theorem grows_label {name : String} (h : s.label name = .ok s') : s.Grows s' := by
  obtain ⟨-, -, -, rfl⟩ := label_eq_ok.mp h
  exact grows_of_symbols (fun _ ha => ha) (Symbols.uses_define ..)

/-- A replaced opcode leaves its cell written. -/
theorem grows_settle {p : Option (Instruction × Shape)} (h : settle t s p = .ok s') :
    s.Grows s' := by
  unfold settle at h
  split at h
  · cases h; exact .refl s
  split at h
  · split at h
    · simp [fail] at h
    · cases h
      refine grows_of_symbols (fun a ha => ?_) rfl
      rw [Image.get?_patch]
      split <;> simp [ha]
  · cases h; exact .refl s

/-! ### Open instructions -/

/-- The encoder goes on: an instruction that is open afterwards was open before, or its opcode has
been written on an empty cell. -/
structure Advances (s s' : Encoder) : Prop extends s.Grows s' where
  opens : ∀ i, s'.expects.instruction? = some i → s.expects.instruction? = some i ∨
    s.image.get? i.address = none ∧ (s'.image.get? i.address).isSome ∧ s'.symbols = s.symbols

theorem Grows.advances (h : s.Grows s')
    (he : s'.expects = s.expects ∨ s'.expects.instruction? = none) : s.Advances s' := by
  refine ⟨h, fun i hi => .inl ?_⟩
  rcases he with he | he
  · rwa [he] at hi
  · rw [he] at hi
    cases hi

theorem advances_mnemonic {m : String} (h : mnemonic t s m = .ok s') : s.Advances s' := by
  unfold mnemonic at h
  split at h
  · simp [fail] at h
  split at h
  · simp [fail] at h
  split at h
  · simp [fail] at h
  obtain ⟨s₁, hwrite, hok⟩ := bind_ok_iff.mp h
  cases hok
  obtain ⟨hgrows, hempty, hwritten, hsymbols⟩ := grows_write hwrite
  refine ⟨⟨hgrows.written, hgrows.uses⟩, ?_⟩
  intro i hi
  rw [instruction?_operandsOf] at hi
  cases hi
  exact .inr ⟨hempty, hwritten, hsymbols⟩

theorem advances_word {w : String} (h : word t s w = .ok s') : s.Advances s' := by
  unfold word at h
  split at h
  · cases h
    exact ((Grows.refl s).await _).advances (.inr rfl)
  split at h
  · cases h
    exact ((Grows.refl s).await _).advances (.inr rfl)
  split at h
  · obtain ⟨s₁, hwrite, hok⟩ := bind_ok_iff.mp h
    cases hok
    exact ((grows_write hwrite).1.await _).advances (.inr rfl)
  · exact advances_mnemonic h

theorem advances_item {tok : Token} (h : Encoder.item t s tok = .ok s') : s.Advances s' := by
  unfold Encoder.item at h
  split at h
  · cases h
    exact (Grows.refl s).advances (.inl rfl)
  · cases h
    exact Grows.advances (grows_of_symbols (fun _ ha => ha) rfl) (.inl rfl)
  · simp [fail] at h
  · have hexpects : s'.expects = s.expects := by
      obtain ⟨-, -, -, rfl⟩ := label_eq_ok.mp h
      rfl
    exact (grows_label h).advances (.inl hexpects)
  · exact advances_word h
  · simp at h

/-- What a step may do to cells, references and open instructions. -/
theorem advances_step {tok : Token} (h : step t s tok = .ok s') : s.Advances s' := by
  cases he : s.expects with
  | item =>
    rw [step_item he] at h
    have hitem := advances_item h
    exact ⟨⟨hitem.written, hitem.uses⟩, hitem.opens⟩
  | origin =>
    rw [step_origin he, Encoder.origin] at h
    split at h
    · simp at h
    · cases h
      exact Grows.advances (grows_of_symbols (fun _ ha => ha) rfl) (.inr rfl)
  | datum =>
    rw [step_datum he] at h
    obtain ⟨bs, hbs⟩ := datum?_isSome h
    rw [datum_eq hbs] at h
    obtain ⟨s₁, hwrite, hok⟩ := bind_ok_iff.mp h
    cases hok
    have hgrows := grows_writeAll hwrite
    exact Grows.advances ⟨hgrows.written, hgrows.uses⟩ (.inr rfl)
  | operand i live =>
    rw [step_operand he, operand] at h
    split at h
    · simp at h
    next k _ =>
    obtain ⟨s₁, hbyte, hok⟩ := bind_ok_iff.mp h
    cases hok
    have hgrows := grows_operandByte hbyte
    refine ⟨⟨hgrows.written, hgrows.uses⟩, ?_⟩
    intro j hj
    rw [await, instruction?_operandsOf] at hj
    cases hj
    exact .inl (by rw [he]; rfl)
  | close p =>
    rw [step_close he, Encoder.close] at h
    split at h
    · obtain ⟨s₁, hsettle, hitem⟩ := bind_ok_iff.mp h
      have hgrows := grows_settle hsettle
      have hitem := advances_item hitem
      refine ⟨hgrows.trans ⟨hitem.written, hitem.uses⟩, ?_⟩
      intro i hi
      -- the statement is closed, so that the item has opened the instruction
      rcases hitem.opens i hi with hopen | ⟨hempty, hwritten, hsymbols⟩
      · cases hopen
      · have hkeeps : s₁.symbols = s.symbols := by rw [settle_keeps hsettle]
        exact .inr ⟨hgrows.empty hempty, hwritten, hsymbols.trans hkeeps⟩
    · simp at h
  | done =>
    rw [step_done he] at h
    cases h
    exact (Grows.refl s).advances (.inl rfl)

/-! ### Cells apart from references -/

/-- The cell is written, and no reference stands on it. -/
def Apart (s : Encoder) (a : Nat) : Prop :=
  (s.image.get? a).isSome ∧ ∀ u ∈ s.symbols.uses, u.address ≠ a

/-- References stand on written cells, and the opcode of an open instruction on another one. -/
structure Reserved (s : Encoder) : Prop where
  uses : ∀ u ∈ s.symbols.uses, (s.image.get? u.address).isSome
  opcode : ∀ i, s.expects.instruction? = some i → s.Apart i.address

theorem reserved_start : start.Reserved :=
  ⟨by simp [start, Symbols.uses], by simp [start, Expectation.instruction?]⟩

theorem Grows.apart (h : s.Grows s') {a : Nat} (ha : s.Apart a) : s'.Apart a := by
  refine ⟨h.written a ha.1, ?_⟩
  rintro u hu rfl
  rcases h.uses u hu with hu | ⟨hempty, -⟩
  · exact ha.2 u hu rfl
  · have hwritten := ha.1
    simp [hempty] at hwritten

theorem Reserved.step {tok : Token} (h : s.Reserved) (hs : Encoder.step t s tok = .ok s') :
    s'.Reserved := by
  have hadv := advances_step hs
  constructor
  · intro u hu
    rcases hadv.uses u hu with hu | ⟨-, hwritten⟩
    · exact hadv.written _ (h.uses u hu)
    · exact hwritten
  · intro i hi
    rcases hadv.opens i hi with hopen | ⟨hempty, hwritten, hsymbols⟩
    · exact hadv.toGrows.apart (h.opcode i hopen)
    · refine ⟨hwritten, ?_⟩
      intro u hu heq
      have hsome := h.uses u (hsymbols ▸ hu)
      simp [heq, hempty] at hsome

theorem Reserved.run : ∀ {toks : List Token} {s s' : Encoder}, s.Reserved →
    Encoder.run t s toks = .ok s' → s'.Reserved ∧ s.Grows s'
  | [], s, _, h, hrun => by cases hrun; exact ⟨h, .refl s⟩
  | tok :: toks, s, s', h, hrun => by
    obtain ⟨s₁, hstep, hrest⟩ := bind_ok_iff.mp hrun
    obtain ⟨hreserved, hgrows⟩ := (h.step hstep).run hrest
    exact ⟨hreserved, (advances_step hstep).toGrows.trans hgrows⟩

end Encoder

/-- An opcode is written when its instruction is open, and no reference ever stands on it. -/
theorem Encoder.apart_of_run {t : Table} {xs toks : List Token} {s final : Encoder}
    {i : Instruction} (hxs : xs <+: toks) (hs : run t start xs = .ok s)
    (hi : s.expects.instruction? = some i) (hfinal : run t start toks = .ok final) :
    s.Apart i.address ∧ final.Apart i.address := by
  obtain ⟨ys, rfl⟩ := hxs
  rw [run_append, hs] at hfinal
  obtain ⟨hreserved, -⟩ := reserved_start.run hs
  have hapart := hreserved.opcode i hi
  exact ⟨hapart, (hreserved.run hfinal).2.apart hapart⟩

/-! ### After the first pass -/

/-- The parts of what the first pass leaves belong together. -/
structure Encoded.Coherent (t : Table) (toks : List Token) (e : Encoded) : Prop where
  /-- a line is noted exactly where a byte is written -/
  lines : e.lines.toList.map Option.isSome = e.image.used
  /-- where no byte is written the memory holds zero -/
  unused : ∀ a : Nat, e.image.used[a]? = some false → e.image.ram[a]? = some 0
  /-- the cursor stands behind the byte of `END`, which is no reference -/
  ending : ∃ a b, a < 256 ∧ e.image.cursor = a + 1 ∧ t.placeholder? endMnemonic = some b ∧
    e.image.used[a]? = some true ∧ e.image.ram[a]? = some b ∧ ∀ u ∈ e.symbols.uses, u.address ≠ a
  /-- no two labels have one key -/
  keys : (e.symbols.definitions.map Symbol.key).Nodup
  /-- a label stands in the memory or right behind it -/
  definitions : ∀ d ∈ e.symbols.definitions, d.address ≤ 256
  /-- no two references stand on one byte -/
  references : (e.symbols.uses.map Symbol.address).Nodup
  /-- the byte of a reference is written and holds its own address -/
  placeholders : ∀ u ∈ e.symbols.uses, e.image.used[u.address]? = some true ∧
    e.image.ram[u.address]? = some (UInt8.ofNat u.address)
  /-- the opcode of an instruction is written, and no reference stands on it -/
  opcodes : ∃ is last, Reading t toks is last ∧
    ∀ js m shape opcode operands ks, is = js ++ .instruction m shape opcode operands :: ks →
      e.image.used[(Replay.start.items js).cursor]? = some true ∧
      ∀ u ∈ e.symbols.uses, u.address ≠ (Replay.start.items js).cursor
  /-- while an instruction is open, the opcode that closing it replaces is on a written cell, on
  which no reference ever stands -/
  settled : ∀ xs s i, xs <+: toks → Encoder.run t .start xs = .ok s →
    s.expects.instruction? = some i →
      (s.image.get? i.address).isSome ∧ ∀ u ∈ e.symbols.uses, u.address ≠ i.address
  /-- where a pair is to be served, its reference is on a written cell -/
  served : ∀ ps label u qs m, Link.pairs e.symbols = ps ++ (label, u) :: qs →
    Link.servePairs ps e.image = (m, none) → (m.get? u.address).isSome

/-- Linking has changed the bytes of references and nothing else. -/
structure Encoded.Linked (e : Encoded) (m : Image) : Prop where
  /-- every reference has one label -/
  resolved : ∀ u ∈ e.symbols.uses, ∃! d, d ∈ e.symbols.definitions ∧ d.key = u.key
  used : m.used = e.image.used
  cursor : m.cursor = e.image.cursor
  ram : ∀ a : Nat, (∀ u ∈ e.symbols.uses, u.address ≠ a) → m.ram[a]? = e.image.ram[a]?

theorem Image.getElem?_used_eq_true {m : Image} {a : Nat} :
    m.used[a]? = some true ↔ (m.get? a).isSome := by
  rcases Nat.lt_or_ge a 256 with ha | ha
  · rw [getElem?_used m ha, Option.some.injEq]
  · simp [used, get?_of_le ha, ha]

theorem Image.getElem?_ram_of_unused {m : Image} {a : Nat} (h : m.used[a]? = some false) :
    m.ram[a]? = some 0 := by
  rcases Nat.lt_or_ge a 256 with ha | ha
  · rw [getElem?_used m ha, Option.some.injEq, Option.isSome_eq_false_iff,
      Option.isNone_iff_eq_none] at h
    rw [getElem?_ram m ha, h]
    rfl
  · simp [used, ha] at h

/-- Two images with the same cell. -/
theorem Image.getElem?_ram_congr {m m' : Image} {a : Nat} (h : m.get? a = m'.get? a) :
    m.ram[a]? = m'.ram[a]? := by
  rcases Nat.lt_or_ge a 256 with ha | ha
  · rw [getElem?_ram m ha, getElem?_ram m' ha, h]
  · simp [ram, ha]

/-- Two images with the same written cells. -/
theorem Image.used_congr {m m' : Image} (h : ∀ a, (m.get? a).isSome = (m'.get? a).isSome) :
    m.used = m'.used := by
  refine List.ext_getElem? fun a => ?_
  rcases Nat.lt_or_ge a 256 with ha | ha
  · rw [getElem?_used m ha, getElem?_used m' ha, h]
  · simp [used, ha]

/-- Serving pairs writes no empty cell and empties none. -/
theorem Link.isSome_get?_servePairs : ∀ {ps : List (Symbol × Symbol)} {m m' : Image},
    servePairs ps m = (m', none) → ∀ a, (m'.get? a).isSome = (m.get? a).isSome
  | [], _, _, h, _ => by cases h; rfl
  | (label, u) :: ps, m, m', h, a => by
    obtain ⟨b, -, hrest⟩ := servePairs_cons h
    rw [isSome_get?_servePairs hrest, Image.get?_patch]
    split
    · next hpatch => simp [hpatch.1, hpatch.2]
    · rfl

namespace Replay

variable {r : Replay} {m : Image} {ss : Symbols} {lines : Vector (Option Nat) 256}

theorem Fits.isSome_get? (h : r.Fits m ss lines) (a : Nat) :
    (m.get? a).isSome = (r.at? a).isSome := by
  rw [h.cells, Option.isSome_map]

/-- Lines are noted where bytes are placed. -/
theorem Fits.lines_eq_used (h : r.Fits m ss lines) :
    lines.toList.map Option.isSome = m.used := by
  refine List.ext_getElem? fun a => ?_
  rcases Nat.lt_or_ge a 256 with ha | ha
  · rw [Image.getElem?_used m ha, h.isSome_get?, List.getElem?_map, Vector.getElem?_toList,
      lines_getElem? ha (h.lines a), Option.map_some, Option.isSome_map]
  · simp [Image.used, ha]

theorem sublist_reference? : ∀ ps : List Placed,
    List.Sublist ((ps.filterMap Placed.reference?).map Symbol.address) (ps.map Placed.address)
  | [] => .slnil
  | p :: ps => by
    have ih := sublist_reference? ps
    cases href : p.reference? with
    | none => simpa [href] using ih.cons p.address
    | some u => simpa [href, Placed.address_of_reference? href] using ih

/-- The references of a replay stand on bytes of their own. -/
theorem Reached.uses_nodup (h : r.Reached) (hr : r.Sound) :
    (r.symbols.uses.map Symbol.address).Nodup := by
  rw [h.uses]
  exact hr.once.sublist (sublist_reference? r.placed)

end Replay

namespace Replay.Fits

variable {t : Table} {is : List Item} {line : Nat} {m : Image} {ss : Symbols}
  {lines : Vector (Option Nat) 256} (h : (program t is line).Fits m ss lines)
  (hr : (program t is line).Sound)
include h hr

/-- A byte that a program places as such is written, and no reference stands on it. -/
theorem apart_of_byte {p : Placed} {b : UInt8} (hp : p ∈ (program t is line).placed)
    (hv : p.value = .byte b) :
    m.get? p.address = some b ∧ ∀ u ∈ ss.uses, u.address ≠ p.address := by
  have hget := h.get?_address hr hp
  rw [hv] at hget
  refine ⟨hget, ?_⟩
  intro u hu heq
  rw [h.symbols] at hu
  have href := (reached_program t is line).reference?_eq hr hp hu heq
  simp [Placed.reference?, hv] at href

theorem apart_ending {b : UInt8} (hb : t.placeholder? endMnemonic = some b) :
    m.get? (start.items is).cursor = some b ∧
      ∀ u ∈ ss.uses, u.address ≠ (start.items is).cursor := by
  have hp : ⟨t.ending line, (start.items is).cursor⟩ ∈ (program t is line).placed :=
    List.mem_append_right _ (List.mem_singleton_self _)
  exact h.apart_of_byte hr hp (by rw [Table.ending, hb]; rfl)

theorem apart_opcode {js ks : List Item} {mnemonic : String} {shape : Shape} {opcode : Emission}
    {operands : List Emission} {xs : List Token} (hs : Spell t is xs)
    (his : is = js ++ .instruction mnemonic shape opcode operands :: ks) :
    (m.get? (start.items js).cursor).isSome ∧
      ∀ u ∈ ss.uses, u.address ≠ (start.items js).cursor := by
  subst his
  obtain ⟨ys, hys⟩ := hs.exists_spells (.instruction mnemonic shape opcode operands) (by simp)
  cases hys with
  | instruction hw hm hg hshape ho hc =>
    obtain ⟨hget, hapart⟩ := h.apart_of_byte hr (mem_placed_program List.mem_cons_self) rfl
    exact ⟨Option.isSome_of_eq_some hget, hapart⟩

end Replay.Fits

/-- Where references stand on written cells of their own, and labels have keys of their own, linking
touches references only. -/
theorem Encoded.Coherent.linked {t : Table} {toks : List Token} {e : Encoded} {m : Image}
    (h : e.Coherent t toks) (hlink : link e.symbols e.image = (m, none)) : e.Linked m := by
  obtain ⟨hserve, hdefined⟩ := link_eq_none hlink
  refine ⟨?_, Image.used_congr (Link.isSome_get?_servePairs hserve),
    Link.cursor_servePairs hserve, ?_⟩
  · intro u hu
    obtain ⟨d, hd⟩ := Option.isSome_iff_exists.mp (hdefined u hu)
    have hmem := List.mem_of_find?_eq_some hd
    have hkey : d.key = Text.upper u.name := by simpa using List.find?_some hd
    refine ⟨d, ⟨hmem, hkey⟩, ?_⟩
    rintro d' ⟨hmem', hkey'⟩
    exact List.inj_on_of_nodup_map h.keys hmem' hmem (hkey'.trans hkey.symm)
  · intro a ha
    refine Image.getElem?_ram_congr (Link.get?_servePairs_of_ne hserve ?_)
    rintro ⟨label, u⟩ hpair
    exact ha u (Link.mem_pairs.mp hpair).2.1

/-- What the first pass leaves is coherent, and if linking succeeds it touches references only. -/
theorem encode_coherent {text : String} {t : Table} {toks : List Token} {e : Encoded}
    (ht : Table.read text = .ok t) (h : encode t toks = .ok e) :
    e.Coherent t toks ∧ ∀ m, link e.symbols e.image = (m, none) → e.Linked m := by
  obtain ⟨is, last, hread, hsound, hfits⟩ := encode_reading h
  obtain ⟨final, hrun, -, rfl⟩ := encode_eq_ok.mp h
  obtain ⟨b, hb⟩ := Table.exists_placeholder_end ht
  have hreached := Replay.reached_program t is last.line
  have hsymbols : final.symbols = (Replay.program t is last.line).symbols := hfits.symbols
  have hwritten := (Encoder.reserved_start.run hrun).1.uses
  have hcoherent : Encoded.Coherent t toks ⟨final.image, final.symbols, final.lines⟩ := by
    refine ⟨hfits.lines_eq_used, fun _ => Image.getElem?_ram_of_unused, ?_,
      hsymbols ▸ hsound.distinct, ?_, hsymbols ▸ hreached.uses_nodup hsound, ?_, ?_, ?_, ?_⟩
    · obtain ⟨hget, hends⟩ := hfits.apart_ending hsound hb
      have ha : (Replay.start.items is).cursor < 256 :=
        hsound.inside ⟨t.ending last.line, _⟩ (by simp [Replay.program, Replay.emit])
      refine ⟨_, b, ha, hfits.cursor, hb, ?_, ?_, hends⟩
      · rw [Image.getElem?_used_eq_true, hget]; rfl
      · rw [Image.getElem?_ram _ ha, hget]; rfl
    · intro d hd
      rcases hreached.address_le hsound (hsymbols ▸ hd) with hle | ⟨heq, -⟩ <;> omega
    · intro u hu
      refine ⟨Image.getElem?_used_eq_true.mpr (hwritten u hu), ?_⟩
      obtain ⟨hentry, mode, hrole⟩ := Symbols.mem_uses.mp (hsymbols ▸ hu)
      obtain ⟨p, hp, hv, haddress⟩ := hreached.exists_placed hentry hrole
      have hget := hfits.get?_address hsound hp
      rw [hv] at hget
      rw [← haddress, Image.getElem?_ram _ (hsound.inside p hp), hget]
      rfl
    · obtain ⟨xs, rest, -, hspell⟩ := hread.tokens
      refine ⟨is, last, hread, ?_⟩
      intro js m shape opcode operands ks his
      obtain ⟨hcell, hapart⟩ := hfits.apart_opcode hsound hspell his
      exact ⟨Image.getElem?_used_eq_true.mpr hcell, hapart⟩
    · intro xs s i hxs hs hi
      obtain ⟨hopen, hfinal⟩ := Encoder.apart_of_run hxs hs hi hrun
      exact ⟨hopen.1, hfinal.2⟩
    · intro ps label u qs m hpairs hserve
      have hpair : (label, u) ∈ Link.pairs final.symbols := by simp [hpairs]
      rw [Link.isSome_get?_servePairs hserve]
      exact hwritten u (Link.mem_pairs.mp hpair).2.1
  exact ⟨hcoherent, fun m hlink => hcoherent.linked hlink⟩

/-- A table with two additions and a jump. -/
def Table.additionsAndJump : Table :=
  ⟨[⟨"000", "ADD", 0xA0, .registerRegister⟩, ⟨"001", "ADD", 0xB0, .registerConst⟩,
    ⟨"002", "JMP", 0xC0, .offset⟩, Row.ofEnd]⟩

theorem encode_coherent_additionsAndJump :
    Table.read "000;A0;ADD REG,REG\n001;B0;ADD REG,CONST\n002;C0;JMP OFFSET" =
      .ok .additionsAndJump ∧
    ∃ e m, encode .additionsAndJump (tokenize "ORG 10\rADD AL,01\rL: JMP L\rEND\r") = .ok e ∧
      (e.image.ram.drop 0x10).take 6 = [0xB0, 0x00, 0x01, 0xC0, 0x14, 0x00] ∧
      e.Coherent .additionsAndJump (tokenize "ORG 10\rADD AL,01\rL: JMP L\rEND\r") ∧
      link e.symbols e.image = (m, none) ∧
      (m.ram.drop 0x10).take 6 = [0xB0, 0x00, 0x01, 0xC0, 0x00, 0x00] ∧ e.Linked m := by
  have ht : Table.read "000;A0;ADD REG,REG\n001;B0;ADD REG,CONST\n002;C0;JMP OFFSET" =
      .ok .additionsAndJump := by decide +kernel
  obtain ⟨e, he, hfacts⟩ := exists_ok_of_map_toOption
    (x := encode .additionsAndJump (tokenize "ORG 10\rADD AL,01\rL: JMP L\rEND\r"))
    (f := fun e => ((e.image.ram.drop 0x10).take 6, (link e.symbols e.image).2,
      ((link e.symbols e.image).1.ram.drop 0x10).take 6))
    (b := ([0xB0, 0x00, 0x01, 0xC0, 0x14, 0x00], none, [0xB0, 0x00, 0x01, 0xC0, 0x00, 0x00]))
    (by decide +kernel)
  obtain ⟨hram, hfacts⟩ := Prod.mk.inj hfacts
  obtain ⟨hnone, hlinked⟩ := Prod.mk.inj hfacts
  have hlink : link e.symbols e.image = ((link e.symbols e.image).1, none) := Prod.ext rfl hnone
  obtain ⟨hcoherent, htouches⟩ := encode_coherent ht he
  exact ⟨ht, e, _, he, hram, hcoherent, hlink, hlinked, htouches _ hlink⟩

end Asm8
