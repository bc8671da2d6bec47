import Asm8.Proofs.Coherence
import Asm8.Proofs.Layout
import Asm8.Proofs.Sections
import Asm8.Proofs.Variants

/-!
The order of the rows of a plain table does not matter.

In another order the rows give the same groups and the same opcode for each shape. Only the opcode that
stands for an instruction before its shape is known, that of the first row, may be another one. So two
runs with the two tables are in the same state, except that the opcode of an open instruction with
several shapes may differ (`Encoder.Drafts`), and closing the instruction makes them agree again:

    mnemonic   operand   operand   close
    A0 ------- 00 ------ 01 ------ B0           rows in one order
    B0 ------- 00 ------ 01 ------ B0           rows in another order
-/

namespace Asm8

/-! ### Rows in another order -/

/-- Two tables that differ at most in opcodes that are replaced later. -/
structure Table.Alike (t t' : Table) : Prop where
  group : ∀ m, t'.group? m = t.group? m
  opcode : ∀ m s, t'.opcode? m s = t.opcode? m s
  placeholder : ∀ m g, t.group? m = some g → g.hasVariants = false →
    t'.placeholder? m = t.placeholder? m
  ending : t'.placeholder? endMnemonic = t.placeholder? endMnemonic

namespace Table

variable {t t' : Table} {m : String}

theorem group?_eq_of_perm (h : t'.rows.Perm t.rows) (m : String) : t'.group? m = t.group? m := by
  have hvariants : (t'.variants m).Perm (t.variants m) := h.filter _
  have hsum : t'.signature m = t.signature m := by
    exact Shape.sumOfBits_perm (hvariants.map Row.shape)
  rw [group?_eq, group?_eq, hsum]
  by_cases hnil : t.variants m = []
  · rw [if_pos hnil, if_pos (hnil ▸ hvariants).eq_nil]
  · rw [if_neg hnil, if_neg]
    intro hnil'
    exact hnil (hnil' ▸ hvariants).symm.eq_nil

theorem opcode?_eq_find? (t : Table) (m : String) (s : Shape) :
    t.opcode? m s = ((t.variants m).find? (·.shape = s)).map Row.opcode := by
  simp [opcode?, variants, List.find?_filter]

theorem placeholder?_eq_head? (t : Table) (m : String) :
    t.placeholder? m = (t.variants m).head?.map Row.opcode := by
  rw [placeholder?, variants, List.head?_filter]

theorem Plain.opcode?_eq_of_perm (hp : t.Plain m) (h : t'.rows.Perm t.rows) (s : Shape) :
    t'.opcode? m s = t.opcode? m s := by
  have hvariants : (t.variants m).Perm (t'.variants m) := h.symm.filter _
  rw [opcode?_eq_find?, opcode?_eq_find?, find?_key_eq_of_perm hvariants hp.nodup]

theorem placeholder?_eq_of_perm (hone : (t.variants m).length ≤ 1) (h : t'.rows.Perm t.rows) :
    t'.placeholder? m = t.placeholder? m := by
  have hvariants : (t'.variants m).Perm (t.variants m) := h.filter _
  rw [placeholder?_eq_head?, placeholder?_eq_head?]
  rcases hrows : t.variants m with _ | ⟨row, _ | _⟩
  · rw [hrows] at hvariants
    rw [hvariants.eq_nil]
  · rw [hrows] at hvariants
    rw [List.perm_singleton.mp hvariants]
  · simp [hrows] at hone

/-- A plain mnemonic whose group has one shape has one row. -/
theorem Plain.length_variants_le {g : Group} (hp : t.Plain m) (hg : t.group? m = some g)
    (hv : g.hasVariants = false) : (t.variants m).length ≤ 1 := by
  have hlength := (hp.perm_shapes fun s => hp.mem_shapes_iff hg).length_eq
  rw [List.length_map] at hlength
  have hone : g.shapes.length ≤ 1 := by simpa [Group.hasVariants] using hv
  omega

theorem alike_of_perm (hp : ∀ m, t.Plain m) (hend : (t.variants endMnemonic).length ≤ 1)
    (h : t'.rows.Perm t.rows) : t.Alike t' where
  group := group?_eq_of_perm h
  opcode m := (hp m).opcode?_eq_of_perm h
  placeholder m _ hg hv := placeholder?_eq_of_perm ((hp m).length_variants_le hg hv) h
  ending := placeholder?_eq_of_perm hend h

/-- The same lines in another order list the same rows in another order. -/
theorem listed_of_perm {text text' : String} {rows : List Row} (h : listed text = .ok rows)
    (hlines : ((Text.lines text').map Text.trim).Perm ((Text.lines text).map Text.trim)) :
    ∃ rows', listed text' = .ok rows' ∧ rows'.Perm rows := by
  obtain ⟨rows', hrows', hperm⟩ :=
    List.perm_comp_forall₂ (hlines.filterMap rowText?) (listed_eq_ok_iff.mp h)
  exact ⟨rows', listed_eq_ok_iff.mpr hrows', hperm⟩

theorem rows_withEnd_perm {rows rows' : List Row} (h : rows'.Perm rows) :
    (withEnd ⟨rows'⟩).rows.Perm (withEnd ⟨rows⟩).rows := by
  have hany : rows'.any (·.mnemonic = endMnemonic) = rows.any (·.mnemonic = endMnemonic) := by
    rw [Bool.eq_iff_iff, List.any_eq_true, List.any_eq_true]
    exact exists_congr fun row => and_congr_left fun _ => h.mem_iff
  unfold withEnd
  rw [hany]
  split
  · exact h
  · exact h.append_right _

/-- Lines in another order are a table if they were one before, with the same rows in another
order. -/
theorem exists_read_of_perm {text text' : String} {rows : List Row} (h : listed text = .ok rows)
    (hread : read text = .ok t)
    (hlines : ((Text.lines text').map Text.trim).Perm ((Text.lines text).map Text.trim)) :
    ∃ t', read text' = .ok t' ∧ t'.rows.Perm t.rows := by
  obtain ⟨hfits, rfl⟩ := (read_eq_ok_iff h).mp hread
  obtain ⟨rows', hrows', hperm⟩ := listed_of_perm h hlines
  refine ⟨withEnd ⟨rows'⟩, (read_eq_ok_iff hrows').mpr ⟨?_, rfl⟩, rows_withEnd_perm hperm⟩
  rw [misfit?_eq_none_iff] at hfits ⊢
  intro m hne
  have hvariants : (variants ⟨rows'⟩ m).Perm (variants ⟨rows⟩ m) := hperm.filter _
  rw [group?_eq_of_perm (t := ⟨rows⟩) hperm]
  exact hfits m fun hnil => hne (List.Perm.eq_nil (hnil ▸ hvariants))

end Table

/-! ### Cells that are replaced -/

namespace Image

theorem patch_patch (m : Image) (a : Nat) (b c : UInt8) :
    (m.patch a b).patch a c = m.patch a c := by
  refine ext_get? (by simp) fun x => ?_
  simp only [get?_patch, true_and]
  by_cases hx : x = a
  · subst hx
    by_cases hw : (m.get? x).isSome <;> simp [hw]
  · simp [hx]

/-- Writing does not see the byte of another cell. -/
theorem write_patch {m : Image} {a : Nat} (h : (m.get? a).isSome) (b c : UInt8) :
    (m.patch a b).write c = (m.write c).map (Prod.map id (·.patch a b)) := by
  have hsome : ((m.patch a b).get? m.cursor).isSome = (m.get? m.cursor).isSome := by
    rw [get?_patch]
    split
    · next hpatch => rw [hpatch.1, hpatch.2]; rfl
    · rfl
  cases hw : m.write c with
  | error fault =>
    cases fault with
    | full =>
      rw [write_eq_full_iff] at hw
      exact write_eq_full_iff.mpr (by rwa [cursor_patch])
    | taken x =>
      obtain ⟨rfl, htaken⟩ := write_eq_taken_iff.mp hw
      exact write_eq_taken_iff.mpr ⟨by rw [cursor_patch], by rw [cursor_patch, hsome, htaken]⟩
  | ok r =>
    obtain ⟨address, m₁⟩ := r
    obtain ⟨hlt, hfree⟩ := exists_write_iff.mp ⟨_, hw⟩
    have hroom : (m.patch a b).get? m.cursor = none := by
      rw [← Option.not_isSome_iff_eq_none, hsome, hfree]
      simp
    obtain ⟨⟨address₂, m₂⟩, hm₂⟩ := (exists_write_iff (m := m.patch a b) (b := c)).mpr
      ⟨by rwa [cursor_patch], by rwa [cursor_patch]⟩
    rw [hm₂]
    refine congrArg Except.ok (Prod.ext ?_ (ext_get? ?_ fun x => ?_))
    · exact (cursor_write hm₂).1.trans ((cursor_patch ..).trans (cursor_write hw).1.symm)
    · dsimp only [Prod.map]
      rw [(cursor_write hm₂).2, cursor_patch, cursor_patch, (cursor_write hw).2]
    · have hne : a ≠ m.cursor := by
        rintro rfl
        rw [hfree] at h
        cases h
      dsimp only [Prod.map]
      rw [get?_write hm₂, get?_patch, get?_patch, get?_write hw, get?_write hw, cursor_patch]
      by_cases hx : x = m.cursor
      · simp [hx, hne.symm]
      · simp [hx, hne]

/-- Writing another byte is writing and then replacing it. -/
theorem write_eq_patch (m : Image) (b c : UInt8) :
    m.write c = (m.write b).map (Prod.map id (·.patch m.cursor c)) := by
  cases hw : m.write b with
  | error fault =>
    cases fault with
    | full => exact write_eq_full_iff.mpr (write_eq_full_iff.mp hw)
    | taken x => exact write_eq_taken_iff.mpr (write_eq_taken_iff.mp hw)
  | ok r =>
    obtain ⟨address, m₁⟩ := r
    obtain ⟨⟨address₂, m₂⟩, hm₂⟩ := (exists_write_iff (b := c)).mpr (exists_write_iff.mp ⟨_, hw⟩)
    rw [hm₂]
    refine congrArg Except.ok (Prod.ext ?_ (ext_get? ?_ fun x => ?_))
    · exact (cursor_write hm₂).1.trans (cursor_write hw).1.symm
    · dsimp only [Prod.map]
      rw [(cursor_write hm₂).2, cursor_patch, (cursor_write hw).2]
    · dsimp only [Prod.map]
      rw [get?_write hm₂, get?_patch, get?_write hw, get?_write hw]
      by_cases hx : x = m.cursor <;> simp [hx]

end Image

/-! ### Two runs -/

/-- What is related to itself gives the same outcome. -/
theorem Outcomes.refl {ε α : Type} {R : α → α → Prop} (hR : ∀ a, R a a) (x : Except ε α) :
    Outcomes Eq R x x := by
  cases x with
  | error d => exact .error rfl
  | ok a => exact .ok (hR a)

theorem Outcomes.of_map {ε α : Type} {R : α → α → Prop} {x : Except ε α} {f : α → α}
    (hR : ∀ a, x = .ok a → R a (f a)) : Outcomes Eq R x (x.map f) := by
  cases x with
  | error d => exact .error rfl
  | ok a => exact .ok (hR a rfl)

namespace Encoder

variable {t t' : Table} {s s' : Encoder} {a : Nat}

/-- The state with another byte on a written cell. -/
def overwrite (s : Encoder) (a : Nat) (b : UInt8) : Encoder :=
  { s with image := s.image.patch a b }

theorem write_overwrite (h : (s.image.get? a).isSome) (b c : UInt8) :
    (s.overwrite a b).write c = (s.write c).map (·.overwrite a b) := by
  rw [write, write, overwrite, Image.write_patch h]
  cases s.image.write c <;> rfl

theorem symbol_overwrite (h : (s.image.get? a).isSome) (b : UInt8) (name : String) (mode : Mode) :
    (s.overwrite a b).symbol name mode = (s.symbol name mode).map (·.overwrite a b) := by
  have hcursor : (s.overwrite a b).image.cursor = s.image.cursor := Image.cursor_patch ..
  rw [symbol, symbol, hcursor, write_overwrite h]
  split
  · rfl
  split
  · rfl
  · cases s.write (UInt8.ofNat s.image.cursor) <;> rfl

theorem operandByte_overwrite (h : (s.image.get? a).isSome) (b : UInt8) (k : Class) (kind : Kind) :
    (s.overwrite a b).operandByte k kind = (s.operandByte k kind).map (·.overwrite a b) := by
  cases k with
  | hex =>
    simp only [operandByte]
    cases kind.hex? with
    | some c => exact write_overwrite h b c
    | none => rfl
  | register =>
    simp only [operandByte]
    cases kind.register? with
    | some r => exact write_overwrite h b r.code
    | none => rfl
  | offset => exact symbol_overwrite h b _ _
  | absolute => exact symbol_overwrite h b _ _
  | openBracket => rfl
  | closeBracket => rfl
  | comma => rfl

/-- Operands are taken whatever byte stands on another cell. -/
theorem operand_overwrite (h : (s.image.get? a).isSome) (b : UInt8) (i : Instruction)
    (live : Candidates) (tok : Token) :
    operand (s.overwrite a b) i live tok = (operand s i live tok).map (·.overwrite a b) := by
  rw [operand, operand]
  split
  · rfl
  · rw [operandByte_overwrite h]
    cases s.operandByte _ tok.kind <;> rfl

/-- The second state is the first, apart from the opcode of an open instruction with variants. -/
inductive Drafts (s : Encoder) : Encoder → Prop
  | same : Drafts s s
  | opcode {i : Instruction} (b : UInt8) (hi : s.expects.instruction? = some i)
    (hv : i.group.hasVariants) (hw : (s.image.get? i.address).isSome) :
    Drafts s (s.overwrite i.address b)

/-- Both steps go on in such states, or both fail with the same diagnostic. -/
abbrev Draft : Except Diagnostic Encoder → Except Diagnostic Encoder → Prop :=
  Outcomes Eq Drafts

theorem write_eq_overwrite (s : Encoder) (b c : UInt8) :
    s.write c = (s.write b).map (·.overwrite s.image.cursor c) := by
  rw [write, write, Image.write_eq_patch s.image b c]
  cases s.image.write b <;> rfl

theorem draft_mnemonic (ht : t.Alike t') (s : Encoder) (m : String) :
    Draft (mnemonic t s m) (mnemonic t' s m) := by
  rw [mnemonic, mnemonic, ht.group]
  cases hg : t.group? m with
  | none => exact .error rfl
  | some g =>
    obtain ⟨b, hb⟩ := exists_placeholder hg
    obtain ⟨b', hb'⟩ := exists_placeholder ((ht.group m).trans hg)
    simp only [hb, hb']
    split
    · exact .error rfl
    · by_cases hv : g.hasVariants
      · rw [write_eq_overwrite s b b']
        cases hw : s.write b with
        | error d => exact .error rfl
        | ok s₁ =>
          have hwritten := (grows_write hw).2.2.1
          exact .ok (.opcode (i := ⟨m, g, s.image.cursor⟩) b' (instruction?_operandsOf _ _) hv
            hwritten)
      · have hsame := ht.placeholder m g hg (by simpa using hv)
        rw [hb, hb', Option.some.injEq] at hsame
        rw [hsame]
        exact .refl (fun _ => .same) _

theorem draft_item (ht : t.Alike t') (s : Encoder) (tok : Token) :
    Draft (Encoder.item t s tok) (Encoder.item t' s tok) := by
  unfold Encoder.item
  cases tok.kind with
  | word w =>
    simp only [word, endProgram, ht.ending]
    split
    · exact .ok .same
    split
    · exact .ok .same
    split
    · exact .refl (fun _ => .same) _
    · exact draft_mnemonic ht s w
  | _ => exact .refl (fun _ => .same) _

theorem settle_congr (ht : t.Alike t') (s : Encoder) (p : Option (Instruction × Shape)) :
    settle t' s p = settle t s p := by
  obtain _ | ⟨i, shape⟩ := p
  · rfl
  · simp only [settle, ht.opcode]

/-- Settling an opcode forgets what stood in its place. -/
theorem settle_overwrite {i : Instruction} (hv : i.group.hasVariants) (b : UInt8) (shape : Shape) :
    settle t (s.overwrite i.address b) (some (i, shape)) = settle t s (some (i, shape)) := by
  simp only [settle, hv, if_true]
  cases t.opcode? i.mnemonic shape with
  | none => rfl
  | some opcode => simp only [overwrite, Image.patch_patch]

theorem draft_close (ht : t.Alike t') (s : Encoder) (p : Option (Instruction × Shape))
    (tok : Token) : Draft (Encoder.close t s p tok) (Encoder.close t' s p tok) := by
  rw [Encoder.close, Encoder.close, settle_congr ht]
  split
  · cases settle t s p with
    | error d => exact .error rfl
    | ok s₁ => exact draft_item ht _ tok
  · exact .error rfl

theorem close_overwrite {i : Instruction} (hv : i.group.hasVariants) (b : UInt8) (shape : Shape)
    (tok : Token) : Encoder.close t (s.overwrite i.address b) (some (i, shape)) tok =
      Encoder.close t s (some (i, shape)) tok := by
  rw [Encoder.close, Encoder.close, settle_overwrite hv]

theorem draft_operand {i : Instruction} (hv : i.group.hasVariants)
    (hw : (s.image.get? i.address).isSome) (b : UInt8) (live : Candidates) (tok : Token) :
    Draft (operand s i live tok) (operand (s.overwrite i.address b) i live tok) := by
  rw [operand_overwrite hw]
  refine .of_map fun s₁ hs₁ => ?_
  rw [operand] at hs₁
  split at hs₁
  · cases hs₁
  · obtain ⟨s₂, hbyte, hok⟩ := bind_ok_iff.mp hs₁
    cases hok
    exact .opcode b (instruction?_operandsOf _ _) hv ((grows_operandByte hbyte).written _ hw)

/-- One token more keeps the two states apart by the opcode of the open instruction only. -/
theorem Drafts.step (ht : t.Alike t') (h : s.Drafts s') (tok : Token) :
    Draft (step t s tok) (step t' s' tok) := by
  cases h with
  | same =>
    cases he : s.expects with
    | item =>
      rw [step_item he, step_item he]
      exact draft_item ht _ tok
    | origin =>
      rw [step_origin he, step_origin he]
      exact .refl (fun _ => .same) _
    | datum =>
      rw [step_datum he, step_datum he]
      exact .refl (fun _ => .same) _
    | operand i live =>
      rw [step_operand he, step_operand he]
      exact .refl (fun _ => .same) _
    | close p =>
      rw [step_close he, step_close he]
      exact draft_close ht s p tok
    | done =>
      rw [step_done he, step_done he]
      exact .ok .same
  | @opcode i b hi hv hw =>
    -- only an instruction that is open has an opcode to replace
    cases he : s.expects with
    | operand j live =>
      rw [he] at hi
      cases hi
      have hline : { s.overwrite i.address b with line := tok.line } =
          { s with line := tok.line }.overwrite i.address b := rfl
      rw [step_operand he, step_operand (s := s.overwrite i.address b) he, hline]
      exact draft_operand (s := { s with line := tok.line }) hv hw b live tok
    | close p =>
      rw [he] at hi
      obtain _ | ⟨j, shape⟩ := p
      · cases hi
      · cases hi
        rw [step_close he, step_close (s := s.overwrite i.address b) he, close_overwrite hv]
        exact draft_close ht s _ tok
    | _ => simp [he, Expectation.instruction?] at hi

theorem Drafts.run (ht : t.Alike t') : ∀ {toks : List Token} {s s' : Encoder}, s.Drafts s' →
    Draft (run t s toks) (run t' s' toks)
  | [], _, _, h => .ok h
  | tok :: _, _, _, h => (h.step ht tok).bind fun _ _ h₁ => h₁.run ht

theorem Drafts.line_eq (h : s.Drafts s') : s'.line = s.line := by
  cases h <;> rfl

theorem Drafts.expects_eq (h : s.Drafts s') : s'.expects = s.expects := by
  cases h <;> rfl

/-- Where the tokens end no opcode is left to replace, or both runs fail. -/
theorem Drafts.finish (ht : t.Alike t') (h : s.Drafts s') : finish t s = finish t' s' := by
  have hstep := h.step ht ⟨.newline, s.line, 0⟩
  unfold Encoder.finish
  rw [h.expects_eq, h.line_eq]
  split
  · next hdone =>
    cases h with
    | same => rfl
    | opcode b hi => simp [hdone, Expectation.instruction?] at hi
  · generalize Encoder.step t s _ = x at hstep ⊢
    generalize Encoder.step t' s' _ = y at hstep ⊢
    cases hstep with
    | error hd => rw [hd]
    | @ok s₁ s₁' h₁ =>
      have hfail : (s₁.fail .missingEnd : Except Diagnostic Encoded) = s₁'.fail .missingEnd := by
        rw [fail, fail, h₁.line_eq]
      exact hfail

end Encoder

/-- With tables that are alike the first pass gives the same. -/
theorem encode_congr_of_alike {t t' : Table} (ht : t.Alike t') (toks : List Token) :
    encode t toks = encode t' toks := by
  have hrun : Encoder.Draft (Encoder.run t .start toks) (Encoder.run t' .start toks) :=
    Encoder.Drafts.run ht .same
  rw [encode, encode]
  generalize Encoder.run t .start toks = x at hrun ⊢
  generalize Encoder.run t' .start toks = y at hrun ⊢
  cases hrun with
  | error hd => rw [hd]; rfl
  | ok h => exact h.finish ht

/-- A text lists rows of which no two give a shape to one mnemonic, no mnemonic stands without operands
beside others, and `END` stands once at most. If it is a table, the same lines in another order, with
whatever blanks around them, are a table too, with the same groups and opcodes, and every source text
assembles to the same with both. -/
theorem assemble_row_order {text text' : String} {rows : List Row} {t : Table}
    (h : Table.listed text = .ok rows) (hread : Table.read text = .ok t)
    (hplain : ∀ m, (⟨rows⟩ : Table).Plain m)
    (hend : ((⟨rows⟩ : Table).variants endMnemonic).length ≤ 1)
    (hlines : ((Text.lines text').map Text.trim).Perm ((Text.lines text).map Text.trim)) :
    ∃ t', Table.read text' = .ok t' ∧ (∀ m, t'.group? m = t.group? m) ∧
      (∀ m s, t'.opcode? m s = t.opcode? m s) ∧ ∀ source, assemble t' source = assemble t source := by
  obtain ⟨t', hread', hperm⟩ := Table.exists_read_of_perm h hread hlines
  obtain ⟨-, rfl⟩ := (Table.read_eq_ok_iff h).mp hread
  have hone : ((Table.withEnd ⟨rows⟩).variants endMnemonic).length ≤ 1 := by
    rw [Table.variants_withEnd]
    split
    · simp
    · exact hend
  have halike := Table.alike_of_perm (Table.plain_withEnd hplain) hone hperm
  refine ⟨t', hread', halike.group, halike.opcode, fun source => ?_⟩
  rw [assemble, assemble, assembleTokens, assembleTokens, encode_congr_of_alike halike]

/-- With its lines turned round a table may put another opcode first, and assembles the same: in both
orders one of the two lines gets an opcode that did not stand there at first. -/
theorem assemble_row_order_reversed :
    ∃ rows t t', Table.listed "000;A0;ADD REG,REG\n001;B0;ADD REG,CONST\n002;7F;END\n" = .ok rows ∧
      (∀ m, (⟨rows⟩ : Table).Plain m) ∧ ((⟨rows⟩ : Table).variants endMnemonic).length ≤ 1 ∧
      Table.read "000;A0;ADD REG,REG\n001;B0;ADD REG,CONST\n002;7F;END\n" = .ok t ∧
      Table.read "002;7F;END\n001;B0;ADD REG,CONST\n000;A0;ADD REG,REG" = .ok t' ∧
      t.placeholder? "ADD" = some 0xA0 ∧ t'.placeholder? "ADD" = some 0xB0 ∧
      (∀ source, assemble t' source = assemble t source) ∧
      ∃ a, assemble t "ADD AL,BL\rADD AL,05\rEND\r" = .ok a ∧
        assemble t' "ADD AL,BL\rADD AL,05\rEND\r" = .ok a ∧
        a.image.ram.take 7 = [0xA0, 0x00, 0x01, 0xB0, 0x00, 0x05, 0x7F] := by
  have hlisted : Table.listed "000;A0;ADD REG,REG\n001;B0;ADD REG,CONST\n002;7F;END\n" =
      .ok [⟨"000", "ADD", 0xA0, .registerRegister⟩, ⟨"001", "ADD", 0xB0, .registerConst⟩,
        ⟨"002", "END", 0x7F, .implied⟩] := by
    decide +kernel
  have hlisted' : Table.listed "002;7F;END\n001;B0;ADD REG,CONST\n000;A0;ADD REG,REG" =
      .ok [⟨"002", "END", 0x7F, .implied⟩, ⟨"001", "ADD", 0xB0, .registerConst⟩,
        ⟨"000", "ADD", 0xA0, .registerRegister⟩] := by
    decide +kernel
  have hread := (Table.read_eq_ok_iff hlisted).mpr ⟨by decide, rfl⟩
  have hread' := (Table.read_eq_ok_iff hlisted').mpr ⟨by decide, rfl⟩
  have hplain := Table.plain_of_rows (t := ⟨[⟨"000", "ADD", 0xA0, .registerRegister⟩,
    ⟨"001", "ADD", 0xB0, .registerConst⟩, ⟨"002", "END", 0x7F, .implied⟩]⟩) (by decide)
  have hlines : ((Text.lines "002;7F;END\n001;B0;ADD REG,CONST\n000;A0;ADD REG,REG").map
      Text.trim).Perm ((Text.lines
        "000;A0;ADD REG,REG\n001;B0;ADD REG,CONST\n002;7F;END\n").map Text.trim) := by
    decide +kernel
  obtain ⟨t', ht', -, -, hsame⟩ := assemble_row_order hlisted hread hplain (by decide) hlines
  cases hread'.symm.trans ht'
  obtain ⟨a, ha, hram⟩ := exists_ok_of_map_toOption
    (x := assemble ⟨[⟨"000", "ADD", 0xA0, .registerRegister⟩, ⟨"001", "ADD", 0xB0, .registerConst⟩,
      ⟨"002", "END", 0x7F, .implied⟩]⟩ "ADD AL,BL\rADD AL,05\rEND\r")
    (f := fun a => a.image.ram.take 7) (b := [0xA0, 0x00, 0x01, 0xB0, 0x00, 0x05, 0x7F])
    (by decide +kernel)
  exact ⟨_, _, _, hlisted, hplain, by decide, hread, hread', by decide, by decide, hsame, a, ha,
    (hsame _).trans ha, hram⟩

end Asm8
