import Asm8.Proofs.Readings
import Asm8.Proofs.References
import Mathlib.Combinatorics.Colex

/-!
Which row of the table an opcode comes from.

The group of a mnemonic is found from the sum of the bits of its rows. As long as no shape is listed
twice, and the bare mnemonic not beside operands, the sum tells the rows: the shapes of the group are
those of the rows, and an opcode is that of a row with the shape of the operands. Other rows may add
up to the bit of a single shape, which then takes the opcode of the first row, whatever its shape is:

    FOO          0
    FOO REG    + 8
               = 8 = REG      the opcode of FOO REG is that of FOO

Sums are words of 32 bits. They wrap around where a shape is listed over and over, but not where none is
listed twice.
-/

namespace Asm8

/-! ### Sums of bits -/

namespace Shape

/-- The place of the bit of a shape with operands. -/
def place (s : Shape) : Nat := s.bit.toNat.log2

theorem toNat_bit {s : Shape} (h : s ≠ .implied) : s.bit.toNat = 2 ^ s.place := by
  revert h
  cases s <;> decide

theorem place_injOn {s s' : Shape} (h : s ≠ .implied) (h' : s' ≠ .implied)
    (hp : s.place = s'.place) : s = s' := by
  have hbit : s.bit.toNat = s'.bit.toNat := by rw [toNat_bit h, toNat_bit h', hp]
  revert hbit h h'
  cases s <;> cases s' <;> decide

/-- Shapes with operands, none of them twice, add up to the bits at their places. -/
theorem sum_toNat_bit {ss : List Shape} (hn : ss.Nodup) (hi : .implied ∉ ss) :
    (ss.map (·.bit.toNat)).sum = ∑ i ∈ (ss.map place).toFinset, 2 ^ i := by
  have hne : ∀ s ∈ ss, s ≠ .implied := fun s hs heq => hi (heq ▸ hs)
  have hplaces : (ss.map place).Nodup :=
    hn.map_on fun s hs s' hs' => place_injOn (hne s hs) (hne s' hs')
  rw [List.sum_toFinset _ hplaces, List.map_map]
  exact congrArg List.sum (List.map_congr_left fun s hs => toNat_bit (hne s hs))

/-- On 32 bits the sum is the remainder. -/
theorem toNat_sumOfBits_eq_mod (ss : List Shape) :
    (sumOfBits ss).toNat = (ss.map (·.bit.toNat)).sum % 2 ^ 32 := by
  induction ss with
  | nil => rfl
  | cons s ss ih =>
    have hcons : sumOfBits (s :: ss) = s.bit + sumOfBits ss := rfl
    rw [hcons, UInt32.toNat_add, ih, List.map_cons, List.sum_cons, Nat.add_mod_mod]

theorem mem_all (s : Shape) : s ∈ all := by
  cases s <;> decide

/-- Nothing is lost as long as no shape comes twice. -/
theorem toNat_sumOfBits {ss : List Shape} (hn : ss.Nodup) :
    (sumOfBits ss).toNat = (ss.map (·.bit.toNat)).sum := by
  have hle : (ss.map (·.bit.toNat)).sum ≤ ∑ s ∈ all.toFinset, s.bit.toNat := by
    rw [← List.sum_toFinset _ hn]
    exact Finset.sum_le_sum_of_subset fun s _ => List.mem_toFinset.mpr (mem_all s)
  have hall : ∑ s ∈ all.toFinset, s.bit.toNat < 2 ^ 32 := by decide
  rw [toNat_sumOfBits_eq_mod, Nat.mod_eq_of_lt (Nat.lt_of_le_of_lt hle hall)]

theorem sumOfBits_perm {ss ss' : List Shape} (h : ss.Perm ss') : sumOfBits ss = sumOfBits ss' :=
  (h.map bit).foldr_eq 0

/-- The sum of their bits tells shapes with operands, none of them twice. -/
theorem mem_of_sum_bit_eq {ss ss' : List Shape} (hn : ss.Nodup) (hi : .implied ∉ ss)
    (hn' : ss'.Nodup) (hi' : .implied ∉ ss') (h : sumOfBits ss = sumOfBits ss')
    {s : Shape} (hs : s ∈ ss) : s ∈ ss' := by
  have h := congrArg UInt32.toNat h
  rw [toNat_sumOfBits hn, toNat_sumOfBits hn', sum_toNat_bit hn hi, sum_toNat_bit hn' hi'] at h
  have hplaces : (ss.map place).toFinset = (ss'.map place).toFinset :=
    Finset.geomSum_injective le_rfl h
  have hmem : s.place ∈ (ss'.map place).toFinset := by
    rw [← hplaces, List.mem_toFinset]
    exact List.mem_map_of_mem hs
  obtain ⟨s', hs', hp⟩ := List.mem_map.mp (List.mem_toFinset.mp hmem)
  rwa [← place_injOn (fun heq => hi' (heq ▸ hs')) (fun heq => hi (heq ▸ hs)) hp]

end Shape

namespace Group

theorem nodup_shapes (g : Group) : g.shapes.Nodup := by
  cases g <;> decide

theorem eq_implied_of_mem {g : Group} (h : .implied ∈ g.shapes) : g = .implied := by
  revert h
  cases g <;> decide

theorem eq_implied_of_signature {g : Group} (h : g.signature = 0) : g = .implied := by
  revert h
  cases g <;> decide

theorem signature_of_ofSignature? {n : UInt32} {g : Group} (h : ofSignature? n = some g) :
    g.signature = n := by
  simpa using List.find?_some h

/-- A group without variants has one shape. -/
theorem eq_singleton_of_mem {g : Group} {s : Shape} (hv : g.hasVariants = false)
    (hs : s ∈ g.shapes) : g.shapes = [s] := by
  revert hv hs
  cases g <;> cases s <;> decide

end Group

/-! ### Rows of a mnemonic -/

namespace Table

variable {t : Table} {m : String} {g : Group} {s : Shape} {b : UInt8}

theorem mem_variants {row : Row} : row ∈ t.variants m ↔ row ∈ t.rows ∧ row.mnemonic = m := by
  simp [variants]

/-- The rows of a mnemonic list no shape twice, and the bare mnemonic not beside operands. -/
structure Plain (t : Table) (m : String) : Prop where
  nodup : ((t.variants m).map Row.shape).Nodup
  alone : ∀ row ∈ t.variants m, row.shape = .implied → t.variants m = [row]

theorem signature_of_group? (h : t.group? m = some g) : g.signature = t.signature m := by
  unfold group? at h
  split at h
  · exact Group.signature_of_ofSignature? h
  · cases h

theorem exists_variant_of_group? (h : t.group? m = some g) : ∃ row, row ∈ t.variants m := by
  unfold group? at h
  split at h
  · next hany =>
    obtain ⟨row, hrow, hm⟩ := List.any_eq_true.mp hany
    exact ⟨row, mem_variants.mpr ⟨hrow, by simpa using hm⟩⟩
  · cases h

/-- The shapes of a group are those that the rows of a plain mnemonic list. -/
theorem Plain.mem_shapes_iff (h : t.Plain m) (hg : t.group? m = some g) :
    s ∈ g.shapes ↔ s ∈ (t.variants m).map Row.shape := by
  have hsum : Shape.sumOfBits g.shapes = Shape.sumOfBits ((t.variants m).map Row.shape) :=
    signature_of_group? hg
  by_cases hi : .implied ∈ (t.variants m).map Row.shape
  · -- the bare mnemonic stands alone, and nothing adds up to zero but nothing
    obtain ⟨row, hrow, hshape⟩ := List.mem_map.mp hi
    have hrows : (t.variants m).map Row.shape = [.implied] := by
      rw [h.alone row hrow hshape, List.map_singleton, hshape]
    rw [hrows] at hsum ⊢
    rw [Group.eq_implied_of_signature hsum]
    rfl
  · have hi' : .implied ∉ g.shapes := by
      intro hmem
      obtain ⟨row, hrow⟩ := exists_variant_of_group? hg
      rw [Group.eq_implied_of_mem hmem] at hsum
      have hnone : (((t.variants m).map Row.shape).map (·.bit.toNat)).sum = 0 := by
        rw [← Shape.toNat_sumOfBits h.nodup, ← hsum]
        rfl
      have hzero : row.shape.bit.toNat = 0 :=
        List.sum_eq_zero_iff.mp hnone _ (List.mem_map_of_mem (List.mem_map_of_mem hrow))
      have himplied : row.shape = .implied := by
        revert hzero
        cases row.shape <;> decide
      exact hi (himplied ▸ List.mem_map_of_mem hrow)
    exact ⟨Shape.mem_of_sum_bit_eq g.nodup_shapes hi' h.nodup hi hsum,
      Shape.mem_of_sum_bit_eq h.nodup hi g.nodup_shapes hi' hsum.symm⟩

theorem exists_head_of_placeholder? (h : t.placeholder? m = some b) :
    ∃ row, (t.variants m).head? = some row ∧ row.opcode = b := by
  rw [placeholder?, ← List.head?_filter] at h
  exact Option.map_eq_some_iff.mp h

theorem exists_variant_of_opcode? (h : t.opcode? m s = some b) :
    ∃ row ∈ t.variants m, row.shape = s ∧ row.opcode = b := by
  obtain ⟨row, hrow, hb⟩ := Option.map_eq_some_iff.mp h
  have hp : row.mnemonic = m ∧ row.shape = s := by simpa using List.find?_some hrow
  exact ⟨row, mem_variants.mpr ⟨List.mem_of_find?_eq_some hrow, hp.1⟩, hp.2, hb⟩

/-- The row that an opcode is taken from: one with the shape of the operands, or else the first one,
where rows that are not plain add up to the bit of that shape. -/
structure Gives (t : Table) (m : String) (s : Shape) (row : Row) : Prop where
  listed : row ∈ t.variants m
  other : row.shape ≠ s →
    (t.variants m).head? = some row ∧ t.signature m = s.bit ∧ ¬t.Plain m

theorem exists_gives (hg : t.group? m = some g) (hs : s ∈ g.shapes)
    (h : t.opcodeFor? m g s = some b) : ∃ row, t.Gives m s row ∧ row.opcode = b := by
  unfold opcodeFor? at h
  split at h
  · obtain ⟨row, hrow, hshape, hb⟩ := exists_variant_of_opcode? h
    exact ⟨row, ⟨hrow, fun hne => absurd hshape hne⟩, hb⟩
  · next hv =>
    obtain ⟨row, hhead, hb⟩ := exists_head_of_placeholder? h
    have hrow : row ∈ t.variants m := List.mem_of_head? hhead
    have hshapes : g.shapes = [s] := Group.eq_singleton_of_mem (by simpa using hv) hs
    refine ⟨row, ⟨hrow, fun hne => ⟨hhead, ?_, fun hplain => hne ?_⟩⟩, hb⟩
    · rw [← signature_of_group? hg, Group.signature, hshapes]
      exact UInt32.add_zero s.bit
    · have hmem := (hplain.mem_shapes_iff hg).mpr (List.mem_map_of_mem hrow)
      rw [hshapes] at hmem
      exact List.mem_singleton.mp hmem

end Table

/-! ### Opcodes in the image -/

/-- An instruction has the opcode of a row of its mnemonic. -/
theorem Item.Spells.exists_gives {t : Table} {m : String} {s : Shape} {opcode : Emission}
    {operands : List Emission} {xs : List Token}
    (h : (Item.instruction m s opcode operands).Spells t xs) :
    ∃ row, t.Gives m s row ∧ opcode.value = .byte row.opcode := by
  cases h with
  | instruction hw hm hg hs ho hc =>
    obtain ⟨row, hrow, hb⟩ := Table.exists_gives hg hs ho
    exact ⟨row, hrow, by rw [hb]⟩

/-- A byte that a replay places stands in the image at its address. -/
theorem Replay.Fits.get?_of_byte {r : Replay} {m : Image} {ss : Symbols}
    {lines : Vector (Option Nat) 256} (h : r.Fits m ss lines) (hr : r.Sound) {p : Placed}
    (hp : p ∈ r.placed) {b : UInt8} (hb : p.value = .byte b) : m.get? p.address = some b := by
  rw [h.get?_address hr hp, hb]
  rfl

/-- The opcode of every instruction that the first pass encodes is that of a row of its mnemonic. The
row has the shape of the operands, unless the rows of the mnemonic list a shape twice, or no operands
beside others. The opcode of `END` is that of its first row. -/
theorem encode_opcode_of_row {text : String} {t : Table} {toks : List Token} {e : Encoded}
    (ht : Table.read text = .ok t) (h : encode t toks = .ok e) :
    ∃ is last, Reading t toks is last ∧
      (∀ is' last', Reading t toks is' last' → is' = is ∧ last' = last) ∧
      (∀ js m s opcode operands ks, is = js ++ .instruction m s opcode operands :: ks →
        ∃ row ∈ t.variants m,
          opcode.value = .byte row.opcode ∧
          e.image.get? (Replay.start.items js).cursor = some row.opcode ∧
          (row.shape ≠ s →
            (t.variants m).head? = some row ∧ t.signature m = s.bit ∧ ¬t.Plain m)) ∧
      ∃ row, (t.variants endMnemonic).head? = some row ∧
        e.image.get? (Replay.start.items is).cursor = some row.opcode := by
  obtain ⟨is, last, hread, hsound, hfits⟩ := encode_reading h
  refine ⟨is, last, hread, fun _ _ hread' => hread'.unique hread, ?_, ?_⟩
  · rintro js m s opcode operands ks rfl
    obtain ⟨xs, rest, -, hsp⟩ := hread.tokens
    obtain ⟨ys, hys⟩ := hsp.exists_spells (.instruction m s opcode operands) (by simp)
    obtain ⟨row, hrow, hvalue⟩ := hys.exists_gives
    refine ⟨row, hrow.listed, hvalue, ?_, hrow.other⟩
    exact hfits.get?_of_byte hsound (Replay.mem_placed_program List.mem_cons_self) hvalue
  · obtain ⟨b, hb⟩ := Table.exists_placeholder_end ht
    obtain ⟨row, hhead, rfl⟩ := Table.exists_head_of_placeholder? hb
    have hp : (⟨t.ending last.line, (Replay.start.items is).cursor⟩ : Placed) ∈
        (Replay.program t is last.line).placed := by simp [Replay.program, Replay.emit]
    exact ⟨row, hhead, hfits.get?_of_byte hsound hp (by simp [Table.ending, hb])⟩

/-- A table with two additions. -/
def Table.additions : Table :=
  ⟨[⟨"000", "ADD", 0xA0, .registerRegister⟩, ⟨"001", "ADD", 0xB0, .registerConst⟩, Row.ofEnd]⟩

theorem encode_opcode_of_row_additions :
    Table.read "000;A0;ADD REG,REG\n001;B0;ADD REG,CONST" = .ok .additions ∧
    Table.additions.Plain "ADD" ∧
    ∃ e, encode .additions (tokenize "ADD AL,01\rEND\r") = .ok e ∧
      e.image.ram.take 4 = [0xB0, 0x00, 0x01, 0x00] ∧
      ∃ is last, Reading .additions (tokenize "ADD AL,01\rEND\r") is last ∧
        ∀ js s opcode operands ks, is = js ++ .instruction "ADD" s opcode operands :: ks →
          ∃ row ∈ Table.additions.variants "ADD", row.shape = s ∧
            e.image.get? (Replay.start.items js).cursor = some row.opcode := by
  have ht : Table.read "000;A0;ADD REG,REG\n001;B0;ADD REG,CONST" = .ok .additions := by
    decide +kernel
  have hplain : Table.additions.Plain "ADD" := ⟨by decide, by decide⟩
  obtain ⟨e, he, hram⟩ := exists_ok_of_map_toOption
    (x := encode .additions (tokenize "ADD AL,01\rEND\r")) (f := fun e => e.image.ram.take 4)
    (b := [0xB0, 0x00, 0x01, 0x00]) (by decide +kernel)
  obtain ⟨is, last, hread, -, hrows, -⟩ := encode_opcode_of_row ht he
  refine ⟨ht, hplain, e, he, hram, is, last, hread, ?_⟩
  intro js s opcode operands ks his
  obtain ⟨row, hrow, -, hget, hother⟩ := hrows js "ADD" s opcode operands ks his
  exact ⟨row, hrow, by_contra fun hne => (hother hne).2.2 hplain, hget⟩

/-- A table that lists a mnemonic without operands beside one with a register. -/
def Table.mixed : Table :=
  ⟨[⟨"000", "FOO", 0x01, .implied⟩, ⟨"001", "FOO", 0x02, .register⟩, Row.ofEnd]⟩

/-- An instruction with a register has the opcode of the row without operands, and not that of the row
with a register. -/
theorem opcode_of_bare_row :
    Table.read "000;01;FOO\n001;02;FOO REG\n" = .ok .mixed ∧
    (∀ row ∈ Table.mixed.variants "FOO", row.opcode = 0x01 → row.shape = .implied) ∧
    ∃ e last, encode .mixed (tokenize "FOO AL\rEND\r") = .ok e ∧
      Reading .mixed (tokenize "FOO AL\rEND\r")
        [.instruction "FOO" .register ⟨.byte 0x01, 1⟩ [⟨.byte 0x00, 1⟩], .newline] last ∧
      e.image.get? 0 = some 0x01 := by
  obtain ⟨e, he, hget⟩ := exists_ok_of_map_toOption
    (x := encode .mixed (tokenize "FOO AL\rEND\r")) (f := fun e => e.image.get? 0)
    (b := some 0x01) (by decide +kernel)
  have htoks : tokenize "FOO AL\rEND\r" = [⟨.word "FOO", 1, 1⟩, ⟨.word "AL", 1, 5⟩] ++
      [⟨.newline, 1, 7⟩] ++ ⟨.word "END", 2, 1⟩ :: [⟨.newline, 2, 4⟩] := by decide +kernel
  have hfoo : (Item.instruction "FOO" .register ⟨.byte 0x01, 1⟩ [⟨.byte 0x00, 1⟩]).Spells .mixed
      [⟨.word "FOO", 1, 1⟩, ⟨.word "AL", 1, 5⟩] :=
    @Item.Spells.instruction _ ⟨.word "FOO", 1, 1⟩ "FOO" .register .register 0x01
      [⟨.word "AL", 1, 5⟩] rfl (by simp [IsDirective, endMnemonic]) (by decide +kernel) (by decide)
      (by decide +kernel) (.cons (by decide +kernel) .nil)
  refine ⟨by decide +kernel, by decide, e, _, he, ⟨⟨_, _, htoks, ?_⟩, ⟨_, rfl, rfl⟩, rfl⟩, hget⟩
  exact .cons hfoo (by simpa using Spell.cons (.newline rfl) .nil)

end Asm8
