import Asm8.Isa.Builtin
import Asm8.Proofs.Faults
import Asm8.Proofs.Tables

/-!
No variant is missing from a plain table.

The encoder looks a mnemonic up three times: its group, the opcode of its first row, and the opcode of
the shape found. Where no mnemonic lists a shape twice, nor the bare mnemonic beside operands, the
three agree: a table that is accepted has a row for each shape that the encoder may find.

    rows of a mnemonic    REG 8   |REG| 16
    signature             24  ──▶  group  ──▶  shapes  REG, |REG|  ──▶  an opcode each
-/

namespace Asm8

/-- Some row lists the mnemonic with the shape. -/
def ListsShape (rows : List Row) (m : String) (s : Shape) : Prop :=
  ∃ row ∈ rows, row.mnemonic = m ∧ row.shape = s

namespace Table

variable {t : Table} {m : String} {g : Group} {s : Shape} {rows : List Row}

theorem mem_shapes_variants : s ∈ (t.variants m).map Row.shape ↔ ListsShape t.rows m s := by
  simp only [List.mem_map, mem_variants, ListsShape, and_assoc]

theorem variants_ne_nil : t.variants m ≠ [] ↔ ∃ row ∈ t.rows, row.mnemonic = m := by
  simp [variants, List.filter_eq_nil_iff]

theorem complete_of_plain (h : ∀ m, t.Plain m) : t.Complete :=
  fun m _ _ hg hs => (h m).exists_opcode hg hs

/-- A plain mnemonic has a group exactly when its shapes are those of the group. -/
theorem Plain.group?_iff_lists (h : t.Plain m) (hm : ∃ row ∈ t.rows, row.mnemonic = m) :
    t.group? m = some g ↔ ∀ s, s ∈ g.shapes ↔ ListsShape t.rows m s := by
  rw [h.group?_eq_some_iff (variants_ne_nil.mpr hm)]
  simp only [mem_shapes_variants]

theorem misfit?_eq_none_iff_lists (h : ∀ m, Plain ⟨rows⟩ m) :
    misfit? ⟨rows⟩ = none ↔
      ∀ row ∈ rows, ∃ g : Group, ∀ s, s ∈ g.shapes ↔ ListsShape rows row.mnemonic s := by
  rw [misfit?_eq_none_iff]
  constructor
  · intro hgroups row hrow
    have hm : ∃ row' ∈ rows, row'.mnemonic = row.mnemonic := ⟨row, hrow, rfl⟩
    obtain ⟨g, hg⟩ := hgroups row.mnemonic (variants_ne_nil.mpr hm)
    exact ⟨g, ((h _).group?_iff_lists hm).mp hg⟩
  · intro hshapes m hne
    obtain ⟨row, hrow, rfl⟩ := variants_ne_nil.mp hne
    obtain ⟨g, hg⟩ := hshapes row hrow
    exact ⟨g, ((h _).group?_iff_lists ⟨row, hrow, rfl⟩).mpr hg⟩

/-- Only mnemonics with rows are to be looked at. -/
theorem plain_of_rows (h : ∀ row ∈ t.rows, ((t.variants row.mnemonic).map Row.shape).Nodup ∧
    ∀ row' ∈ t.variants row.mnemonic, row'.shape = .implied → t.variants row.mnemonic = [row'])
    (m : String) : t.Plain m := by
  by_cases hm : ∃ row ∈ t.rows, row.mnemonic = m
  · obtain ⟨row, hrow, rfl⟩ := hm
    exact ⟨(h row hrow).1, (h row hrow).2⟩
  · have hnil : t.variants m = [] := by
      by_contra hne
      exact hm (variants_ne_nil.mp hne)
    exact ⟨by simp [hnil], by simp [hnil]⟩

theorem plain_builtin : ∀ m, builtin.Plain m :=
  plain_of_rows (by decide +kernel)

end Table

/-- A text of well-formed lines that lists no mnemonic with a shape twice, and no mnemonic without
operands beside others, is a table exactly when each mnemonic lists the shapes of a group. The group of
a mnemonic then has these shapes, each mnemonic with a group has an opcode for its placeholder, and
whatever the tokens are the first pass does not miss a variant. It does not with the built-in table. -/
theorem read_groups_iff {text : String} {rows : List Row} (h : Table.listed text = .ok rows)
    (hplain : ∀ m, (⟨rows⟩ : Table).Plain m) :
    ((∃ t, Table.read text = .ok t) ↔
      ∀ row ∈ rows, ∃ g : Group, ∀ s, s ∈ g.shapes ↔ ListsShape rows row.mnemonic s) ∧
    (∀ t, Table.read text = .ok t →
      (∀ row ∈ rows, ∃ g, t.group? row.mnemonic = some g ∧
        ∀ s, s ∈ g.shapes ↔ ListsShape rows row.mnemonic s) ∧
      (∀ m g, t.group? m = some g → ∃ b, t.placeholder? m = some b) ∧
      ∀ toks line variant, encode t toks ≠ .error ⟨line, .missingVariant variant⟩) ∧
    ∀ toks line variant, encode .builtin toks ≠ .error ⟨line, .missingVariant variant⟩ := by
  refine ⟨?_, ?_, (Table.complete_of_plain Table.plain_builtin).encode_ne⟩
  · rw [← Table.misfit?_eq_none_iff_lists hplain]
    simp only [Table.read_eq_ok_iff h, exists_and_left, exists_eq, and_true]
  · intro t ht
    obtain ⟨hfits, rfl⟩ := (Table.read_eq_ok_iff h).mp ht
    refine ⟨?_, fun m g => Encoder.exists_placeholder,
      (Table.complete_of_plain (Table.plain_withEnd hplain)).encode_ne⟩
    intro row hrow
    have hm : ∃ row' ∈ rows, row'.mnemonic = row.mnemonic := ⟨row, hrow, rfl⟩
    have hne := Table.variants_ne_nil.mpr hm
    obtain ⟨g, hg⟩ := Table.misfit?_eq_none_iff.mp hfits row.mnemonic hne
    refine ⟨g, ?_, ((hplain _).group?_iff_lists hm).mp hg⟩
    rw [Table.group?_withEnd hne, hg]

/-- Two additions are accepted. A jump to a distance beside one to a register is not, since no group
has these two shapes. -/
theorem read_groups_iff_additions :
    (∃ rows t, Table.listed "000;A0;ADD REG,REG\n001;B0;ADD REG,CONST" = .ok rows ∧
      (∀ m, (⟨rows⟩ : Table).Plain m) ∧
      Table.read "000;A0;ADD REG,REG\n001;B0;ADD REG,CONST" = .ok t ∧
      ∀ toks line variant, encode t toks ≠ .error ⟨line, .missingVariant variant⟩) ∧
    ∃ rows, Table.listed "000;C0;JMP OFFSET\n001;C1;JMP REG\n" = .ok rows ∧
      (∀ m, (⟨rows⟩ : Table).Plain m) ∧
      ¬∃ t, Table.read "000;C0;JMP OFFSET\n001;C1;JMP REG\n" = .ok t := by
  constructor
  · have hlisted : Table.listed "000;A0;ADD REG,REG\n001;B0;ADD REG,CONST" =
        .ok [⟨"000", "ADD", 0xA0, .registerRegister⟩, ⟨"001", "ADD", 0xB0, .registerConst⟩] := by
      decide +kernel
    have hplain := Table.plain_of_rows (t := ⟨[⟨"000", "ADD", 0xA0, .registerRegister⟩,
      ⟨"001", "ADD", 0xB0, .registerConst⟩]⟩) (by decide)
    obtain ⟨hiff, hread, -⟩ := read_groups_iff hlisted hplain
    obtain ⟨t, ht⟩ := hiff.mpr fun row hrow => ⟨.arith, fun s => by
      rw [← Table.mem_shapes_variants (t := ⟨_⟩)]
      revert row
      cases s <;> decide⟩
    exact ⟨_, t, hlisted, hplain, ht, (hread t ht).2.2⟩
  · have hlisted : Table.listed "000;C0;JMP OFFSET\n001;C1;JMP REG\n" =
        .ok [⟨"000", "JMP", 0xC0, .offset⟩, ⟨"001", "JMP", 0xC1, .register⟩] := by
      decide +kernel
    have hplain := Table.plain_of_rows (t := ⟨[⟨"000", "JMP", 0xC0, .offset⟩,
      ⟨"001", "JMP", 0xC1, .register⟩]⟩) (by decide)
    refine ⟨_, hlisted, hplain, fun hread => ?_⟩
    obtain ⟨g, hg⟩ := (read_groups_iff hlisted hplain).1.mp hread _ List.mem_cons_self
    have hoffset : .offset ∈ g.shapes := (hg _).mpr ⟨_, List.mem_cons_self, rfl, rfl⟩
    have hregister : .register ∈ g.shapes :=
      (hg _).mpr ⟨⟨"001", "JMP", 0xC1, .register⟩, by simp, rfl, rfl⟩
    revert hoffset hregister
    cases g <;> decide

end Asm8
