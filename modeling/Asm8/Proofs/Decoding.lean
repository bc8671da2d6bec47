import Asm8.Proofs.Relocation
import Asm8.Proofs.Variants

/-!
Machine code of the built-in table is decodable.

Without `ORG` and `DB` the bytes of a program are those of its instructions, one after the other. An
opcode tells the mnemonic and the shape of its row, and the shape tells how many bytes follow, so the
instructions can be read back from the bytes:

    L: MOV AL,[10]        JMP L         END
       D1  00  10         C0  FD        00
       MOV REG,|ADDR|     JMP OFFSET    HALT

`END` has the opcode of `HALT` and is read as such. What cannot be read back are the names of labels,
labels that nothing names, and the layout.
-/

namespace Asm8

/-- An instruction of the machine. -/
structure Operation where
  mnemonic : String
  shape : Shape
  operands : List UInt8
  deriving DecidableEq, Repr

/-! ### Decoding -/

/-- Whether a token of the class asks for a byte. -/
def Class.isField : Class → Bool
  | .hex | .register | .offset | .absolute => true
  | .openBracket | .closeBracket | .comma => false

/-- The classes of the operands that have a byte in the code. -/
def Shape.fields (s : Shape) : List Class :=
  s.classes.filter Class.isField

/-- The first row with an opcode. -/
def Table.row? (t : Table) (opcode : UInt8) : Option Row :=
  t.rows.find? (·.opcode = opcode)

/-- Read code as instructions. -/
def Table.decode? (t : Table) : List UInt8 → Option (List Operation)
  | [] => some []
  | opcode :: bytes =>
    (t.row? opcode).bind fun row =>
      if row.shape.fields.length ≤ bytes.length then
        (t.decode? (bytes.drop row.shape.fields.length)).map
          (⟨row.mnemonic, row.shape, bytes.take row.shape.fields.length⟩ :: ·)
      else none
  termination_by bytes => bytes.length
  decreasing_by
    simp only [List.length_drop, List.length_cons]
    omega

/-- An instruction in front is read off. -/
theorem Table.decode?_cons {t : Table} {opcode : UInt8} {row : Row} {bytes rest : List UInt8}
    (hrow : t.row? opcode = some row) (hlen : bytes.length = row.shape.fields.length) :
    t.decode? (opcode :: (bytes ++ rest)) =
      (t.decode? rest).map (⟨row.mnemonic, row.shape, bytes⟩ :: ·) := by
  have hle : row.shape.fields.length ≤ (bytes ++ rest).length := by
    rw [List.length_append]
    omega
  rw [decode?, hrow, Option.bind_some, if_pos hle, ← hlen, List.take_left, List.drop_left]

/-- A table whose opcodes tell mnemonic and shape: no two rows have one opcode, except that `END` may
share that of `HALT`. -/
structure Table.Decodable (t : Table) : Prop where
  plain : ∀ m, t.Plain m
  row : ∀ row ∈ t.rows, row.mnemonic ≠ endMnemonic → t.row? row.opcode = some row
  ending : ∃ row, t.row? ((t.placeholder? endMnemonic).getD 0x00) = some row ∧
    row.mnemonic = "HALT" ∧ row.shape = .implied

theorem Table.decodable_builtin : builtin.Decodable where
  plain := plain_builtin
  row := by decide +kernel
  ending := ⟨⟨"000", "HALT", 0x00, .implied⟩, by decide +kernel, rfl, rfl⟩

/-- `END` is read as `HALT`. -/
theorem Table.Decodable.decode?_ending {t : Table} (ht : t.Decodable) :
    t.decode? [(t.placeholder? endMnemonic).getD 0x00] = some [⟨"HALT", .implied, []⟩] := by
  obtain ⟨row, hrow, hmnemonic, hshape⟩ := ht.ending
  have hlen : ([] : List UInt8).length = row.shape.fields.length := by
    rw [hshape]
    rfl
  have hcons : t.decode? ((t.placeholder? endMnemonic).getD 0x00 :: ([] ++ [])) = _ :=
    decode?_cons hrow hlen
  rw [List.append_nil] at hcons
  rw [hcons, decode?, hmnemonic, hshape]
  rfl

/-- The opcode of an instruction tells its mnemonic and its shape. -/
theorem Item.Spells.exists_row {t : Table} (ht : t.Decodable) {m : String} {s : Shape}
    {opcode : Emission} {operands : List Emission} {xs : List Token}
    (h : (Item.instruction m s opcode operands).Spells t xs) :
    ∃ row, opcode.value = .byte row.opcode ∧ t.row? row.opcode = some row ∧
      row.mnemonic = m ∧ row.shape = s := by
  obtain ⟨row, hgives, hvalue⟩ := h.exists_gives
  obtain ⟨hrow, hmnemonic⟩ := Table.mem_variants.mp hgives.listed
  have hshape : row.shape = s := by
    by_contra hne
    exact (hgives.other hne).2.2 (ht.plain m)
  have hend : row.mnemonic ≠ endMnemonic := by
    cases h with
    | instruction hw hm =>
      rw [hmnemonic]
      exact fun h => hm (.inr (.inr h))
  exact ⟨row, hvalue, ht.row row hrow hend, hmnemonic, hshape⟩

/-! ### Operands -/

/-- A byte, or the mode of a symbol without its name. -/
def Value.unnamed : Value → Value
  | .byte b => .byte b
  | .symbol _ mode => .symbol "" mode

/-- What a byte of the code stands for, without the name of a symbol. -/
def Class.unnamed (k : Class) (b : UInt8) : Value :=
  match k with
  | .offset => .symbol "" .relative
  | .absolute => .symbol "" .absolute
  | _ => .byte b

/-- The byte that stands in the image for a placed value. -/
def Placed.byte? (ss : Symbols) (p : Placed) : Option UInt8 :=
  p.value.byte? ss p.address

theorem Class.emission?_eq_none {k : Class} (h : k.isField = false) (tok : Token) :
    k.emission? tok = none := by
  cases k <;> first | rfl | cases h

/-- A token of a field asks for one byte, and the byte tells all but the name of a symbol. -/
theorem Class.exists_emission {k : Class} (hk : k.isField) {tok : Token}
    (h : k.accepts tok.kind) :
    ∃ e, k.emission? tok = some e ∧
      ∀ ss c b, e.value.byte? ss c = some b → e.value.unnamed = k.unnamed b := by
  cases k with
  | hex =>
    obtain ⟨v, hv⟩ := Option.isSome_iff_exists.mp h
    refine ⟨⟨.byte v, tok.line⟩, by rw [emission?, hv]; rfl, ?_⟩
    rintro ss c b hb
    cases hb
    rfl
  | register =>
    obtain ⟨v, hv⟩ := Option.isSome_iff_exists.mp h
    refine ⟨⟨.byte v.code, tok.line⟩, by rw [emission?, hv]; rfl, ?_⟩
    rintro ss c b hb
    cases hb
    rfl
  | offset => exact ⟨_, rfl, fun _ _ _ _ => rfl⟩
  | absolute => exact ⟨_, rfl, fun _ _ _ _ => rfl⟩
  | _ => cases hk

theorem mapM_append_eq_some {α β : Type} {f : α → Option β} {xs ys : List α} {zs : List β} :
    (xs ++ ys).mapM f = some zs ↔
      ∃ as bs, xs.mapM f = some as ∧ ys.mapM f = some bs ∧ as ++ bs = zs := by
  rw [List.mapM_append]
  simp [Option.bind_eq_some_iff]

theorem exists_mapM_of_prefix {α β : Type} {f : α → Option β} {xs ys : List α} {zs : List β}
    (h : xs <+: ys) (hys : ys.mapM f = some zs) : ∃ as, xs.mapM f = some as := by
  obtain ⟨ws, rfl⟩ := h
  obtain ⟨as, -, has, -⟩ := mapM_append_eq_some.mp hys
  exact ⟨as, has⟩

theorem mapM_cons_eq_some {α β : Type} {f : α → Option β} {x : α} {xs : List α} {zs : List β} :
    (x :: xs).mapM f = some zs ↔ ∃ b bs, f x = some b ∧ xs.mapM f = some bs ∧ b :: bs = zs := by
  rw [List.mapM_cons]
  simp [Option.bind_eq_some_iff]

theorem mapM_eq_some_of_map_eq {α β : Type} {f : α → Option β} {xs : List α} :
    ∀ {zs : List β}, xs.map f = zs.map some → xs.mapM f = some zs := by
  induction xs with
  | nil =>
    intro zs h
    rw [List.map_eq_nil_iff.mp h.symm]
    rfl
  | cons x xs ih =>
    intro zs h
    obtain ⟨z, zs, rfl, hz, hzs⟩ := List.map_eq_cons_iff.mp h.symm
    exact mapM_cons_eq_some.mpr ⟨z, zs, hz.symm, ih hzs.symm, rfl⟩

/-- The bytes of operands tell all but the names of symbols, and there is one for each field. -/
theorem Class.Match.unnamed_emissions {ss : Symbols} {ks : List Class} {toks : List Token}
    (h : Match ks toks) : ∀ {c : Nat} {bs : List UInt8},
      (Replay.placeFrom c (emissions ks toks)).mapM (Placed.byte? ss) = some bs →
      bs.length = (ks.filter isField).length ∧
        (emissions ks toks).map (·.value.unnamed) =
          List.zipWith Class.unnamed (ks.filter isField) bs := by
  induction h with
  | nil =>
    intro c bs h
    cases h
    exact ⟨rfl, rfl⟩
  | @cons k tok ks toks hk hks ih =>
    intro c bs h
    by_cases hfield : k.isField
    · obtain ⟨e, he, hunnamed⟩ := exists_emission hfield hk
      have hcons : emissions (k :: ks) (tok :: toks) = e :: emissions ks toks := by
        simp [emissions, he]
      rw [hcons, Replay.placeFrom, mapM_cons_eq_some] at h
      obtain ⟨b, bs, hb, hbs, rfl⟩ := h
      obtain ⟨hlen, hvalues⟩ := ih hbs
      rw [hcons, List.filter_cons_of_pos hfield, List.map_cons, List.zipWith_cons_cons, hvalues,
        hunnamed ss c b hb]
      exact ⟨congrArg (· + 1) hlen, rfl⟩
    · have hskip : emissions (k :: ks) (tok :: toks) = emissions ks toks := by
        simp [emissions, emission?_eq_none (by simpa using hfield) tok]
      rw [hskip] at h ⊢
      rw [List.filter_cons_of_neg hfield]
      exact ih h

theorem Item.Spells.unnamed_operands {t : Table} {ss : Symbols} {m : String} {s : Shape}
    {opcode : Emission} {operands : List Emission} {xs : List Token} {c : Nat} {bs : List UInt8}
    (h : (Item.instruction m s opcode operands).Spells t xs)
    (hbs : (Replay.placeFrom c operands).mapM (Placed.byte? ss) = some bs) :
    bs.length = s.fields.length ∧
      operands.map (·.value.unnamed) = List.zipWith Class.unnamed s.fields bs := by
  cases h with
  | instruction hw hm hg hs ho hc => exact hc.unnamed_emissions hbs

/-! ### Programs of instructions -/

/-- The item is not `ORG` and not `DB`. -/
structure Item.IsCode (i : Item) : Prop where
  stays : i.Stays
  notData : ∀ bytes, i ≠ .data bytes

/-- Mnemonic, shape and operands of an instruction, without the names of symbols. -/
def Item.unnamed? : Item → Option (String × Shape × List Value)
  | .instruction m s _ operands => some (m, s, operands.map (·.value.unnamed))
  | _ => none

/-- The same as far as it can be read off the code. -/
def Operation.unnamed (o : Operation) : String × Shape × List Value :=
  (o.mnemonic, o.shape, List.zipWith Class.unnamed o.shape.fields o.operands)

namespace Replay

/-- The instructions among some items, with the bytes that their operands stand for. -/
def code? (ss : Symbols) : Replay → List Item → Option (List Operation)
  | _, [] => some []
  | r, i@(.instruction m s _ operands) :: is =>
    ((placeFrom (r.cursor + 1) operands).mapM (Placed.byte? ss)).bind fun bytes =>
      (code? ss (r.item i) is).map (⟨m, s, bytes⟩ :: ·)
  | r, i :: is => code? ss (r.item i) is

/-- The bytes of a replay are read as some instructions, whatever follows. -/
def Decodes (t : Table) (ss : Symbols) (r : Replay) (code : List Operation) : Prop :=
  ∃ bytes, r.placed.mapM (Placed.byte? ss) = some bytes ∧
    ∀ rest, t.decode? (bytes ++ rest) = (t.decode? rest).map (code ++ ·)

variable {t : Table} {ss : Symbols} {r : Replay} {code : List Operation}

theorem decodes_start (t : Table) (ss : Symbols) : start.Decodes t ss [] := by
  refine ⟨[], rfl, fun rest => ?_⟩
  simp

/-- An item that places nothing changes nothing. -/
theorem Decodes.of_placed_eq {r' : Replay} (h : r.Decodes t ss code)
    (hplaced : r'.placed = r.placed) : r'.Decodes t ss code := by
  rwa [Decodes, hplaced]

/-- One more instruction is read after those before it. -/
theorem Decodes.instruction (ht : t.Decodable) {m : String} {s : Shape} {opcode : Emission}
    {operands : List Emission} {xs : List Token} {all : List UInt8} (h : r.Decodes t ss code)
    (hi : (Item.instruction m s opcode operands).Spells t xs)
    (hall : (r.item (.instruction m s opcode operands)).placed.mapM (Placed.byte? ss) = some all) :
    ∃ bytes, (placeFrom (r.cursor + 1) operands).mapM (Placed.byte? ss) = some bytes ∧
      (r.item (.instruction m s opcode operands)).Decodes t ss (code ++ [⟨m, s, bytes⟩]) ∧
      (Operation.mk m s bytes).unnamed = (m, s, operands.map (·.value.unnamed)) := by
  obtain ⟨row, hopcode, hrow, rfl, rfl⟩ := hi.exists_row ht
  have hsplit := hall
  rw [placed_item, mapM_append_eq_some, Item.emissions, placeFrom] at hsplit
  obtain ⟨before, new, hbefore, hnew, rfl⟩ := hsplit
  obtain ⟨b, bytes, hb, hbytes, rfl⟩ := mapM_cons_eq_some.mp hnew
  obtain ⟨old, hold, hdecode⟩ := h
  obtain rfl : old = before := Option.some.inj (hold.symm.trans hbefore)
  have hcode : b = row.opcode := by
    rw [Placed.byte?, hopcode] at hb
    exact (Option.some.inj hb).symm
  subst hcode
  obtain ⟨hlen, hunnamed⟩ := hi.unnamed_operands hbytes
  refine ⟨bytes, hbytes, ⟨_, hall, fun rest => ?_⟩, ?_⟩
  · rw [List.append_assoc, hdecode, List.cons_append, Table.decode?_cons hrow hlen, Option.map_map]
    simp [Function.comp_def]
  · rw [Operation.unnamed, hunnamed]

/-- Items without `ORG` and `DB` that have all their bytes are read back from them. -/
theorem Decodes.items (ht : t.Decodable) {is : List Item} (hcode : ∀ i ∈ is, i.IsCode)
    (hspells : ∀ i ∈ is, ∃ xs, i.Spells t xs) : ∀ {r : Replay} {before : List Operation}
      {all : List UInt8}, r.Decodes t ss before →
      (r.items is).placed.mapM (Placed.byte? ss) = some all →
      ∃ code, code? ss r is = some code ∧ (r.items is).Decodes t ss (before ++ code) ∧
        is.filterMap Item.unnamed? = code.map Operation.unnamed := by
  induction is with
  | nil =>
    intro r before all h _
    exact ⟨[], rfl, by rwa [List.append_nil], rfl⟩
  | cons i is ih =>
    intro r before all h hall
    obtain ⟨hi, his⟩ := List.forall_mem_cons.mp hcode
    obtain ⟨⟨xs, hxs⟩, hrest⟩ := List.forall_mem_cons.mp hspells
    cases i with
    | origin address => exact absurd rfl (hi.stays address)
    | data bytes => exact absurd rfl (hi.notData bytes)
    | comment => exact ih his hrest h hall
    | newline => exact ih his hrest h hall
    | label name line => exact ih his hrest (h.of_placed_eq rfl) hall
    | instruction m s opcode operands =>
      obtain ⟨new, hnew⟩ := exists_mapM_of_prefix
        (extends_items is (r.item (.instruction m s opcode operands))).placed hall
      obtain ⟨bytes, hbytes, hdecodes, hunnamed⟩ := h.instruction ht hxs hnew
      obtain ⟨code, hcode, hdecodes, hcodes⟩ := ih his hrest hdecodes hall
      refine ⟨⟨m, s, bytes⟩ :: code, ?_, ?_, ?_⟩
      · rw [code?, hbytes, Option.bind_some, hcode]
        rfl
      · rwa [List.append_assoc, List.singleton_append] at hdecodes
      · rw [List.map_cons, hunnamed, ← hcodes]
        rfl

/-- The bytes of a program without `ORG` are those of the memory up to the cursor. -/
theorem Shows.mapM_byte? {a : Assembly} (h : r.Shows a) (hpacked : r.Packed) :
    r.placed.mapM (Placed.byte? r.symbols) = some (a.image.ram.take a.image.cursor) := by
  have hbyte : ∀ p ∈ r.placed, p.byte? r.symbols = a.image.ram[p.address]? := by
    intro p hp
    obtain ⟨b, hb, hram, -⟩ := h.written p hp
    rw [hram]
    exact hb
  have hle : r.cursor ≤ a.image.ram.length := by
    by_contra hgt
    obtain ⟨p, hp, hlast⟩ := hpacked.exists_placed (i := a.image.ram.length) (by omega)
    obtain ⟨b, -, hram, -⟩ := h.written p hp
    rw [hlast, List.getElem?_eq_none (Nat.le_refl _)] at hram
    cases hram
  apply mapM_eq_some_of_map_eq
  calc
    r.placed.map (Placed.byte? r.symbols)
    _ = r.placed.map (fun p => a.image.ram[p.address]?) := List.map_congr_left hbyte
    _ = (List.range r.cursor).map (fun x => a.image.ram[x]?) := by
      rw [← hpacked.placed, List.map_map]
      rfl
    _ = (a.image.ram.take a.image.cursor).map some := by
      rw [h.cursor]
      refine List.ext_getElem ?_ fun i hi hi' => ?_
      · simpa using hle
      · simp only [List.length_map, List.length_range] at hi
        have hlt : i < a.image.ram.length := by omega
        simp [hlt]

end Replay

/-- No statement of the program that the tokens write is `ORG` or `DB`. -/
def OnlyCode (t : Table) (toks : List Token) : Prop :=
  ∀ is last, Reading t toks is last → ∀ i ∈ is, i.IsCode

/-- Where no token is the word `ORG` or `DB`, no statement is. -/
theorem onlyCode_of_forall_ne {t : Table} {toks : List Token}
    (horg : ∀ tok ∈ toks, tok.kind ≠ .word "ORG") (hdb : ∀ tok ∈ toks, tok.kind ≠ .word "DB") :
    OnlyCode t toks := by
  intro is last hread i hi
  refine ⟨noOrigin_of_forall_ne horg is last hread i hi, ?_⟩
  rintro bytes rfl
  obtain ⟨xs, rest, rfl, hspell⟩ := hread.tokens
  obtain ⟨ys, hys, hsub⟩ := hspell.exists_subset _ hi
  cases hys with
  | data hw _ => exact hdb _ (List.mem_append_left _ (hsub List.mem_cons_self)) hw

/-- The code of an assembled program of instructions is read back as these, and `HALT`. -/
theorem OnlyCode.decode?_eq {t : Table} (ht : t.Decodable) {toks : List Token} {a : Assembly}
    (hcode : OnlyCode t toks) (h : assembleTokens t toks = .ok a) :
    ∃ is last code, Reading t toks is last ∧ Replay.code? a.symbols .start is = some code ∧
      is.filterMap Item.unnamed? = code.map Operation.unnamed ∧
      t.decode? (a.image.ram.take a.image.cursor) = some (code ++ [⟨"HALT", .implied, []⟩]) := by
  obtain ⟨is, last, hread, -, -, hshows⟩ := assembleTokens_shows h
  have his := hcode is last hread
  obtain ⟨hpacked, -⟩ := Replay.packed_program (t := t) (fun i hi => (his i hi).stays) last.line
  have hbytes := hshows.mapM_byte? hpacked
  rw [← hshows.symbols] at hbytes
  have hspells : ∀ i ∈ is, ∃ xs, i.Spells t xs := by
    obtain ⟨xs, rest, -, hspell⟩ := hread.tokens
    exact hspell.exists_spells
  -- the last byte is that of `END`
  obtain ⟨bytes, ending, hitems, hending, hram⟩ := mapM_append_eq_some.mp hbytes
  obtain ⟨code, hcode, ⟨bytes', hbytes', hdecode⟩, hunnamed⟩ :=
    (Replay.decodes_start t a.symbols).items ht his hspells hitems
  refine ⟨is, last, code, hread, hcode, hunnamed, ?_⟩
  obtain rfl : [(t.placeholder? endMnemonic).getD 0x00] = ending := Option.some.inj hending
  obtain rfl : bytes = bytes' := Option.some.inj (hitems.symm.trans hbytes')
  rw [← hram, hdecode, ht.decode?_ending]
  rfl

/-- Two programs of instructions with the same code are the same instructions, but for the names of
labels. -/
theorem builtin_code_unique {toks toks' : List Token} {a a' : Assembly}
    (h : assembleTokens .builtin toks = .ok a) (h' : assembleTokens .builtin toks' = .ok a')
    (hcode : OnlyCode .builtin toks) (hcode' : OnlyCode .builtin toks')
    (hram : a.image.ram = a'.image.ram) (hcursor : a.image.cursor = a'.image.cursor) :
    ∃ is last is' last' code,
      Reading .builtin toks is last ∧ Reading .builtin toks' is' last' ∧
      Replay.code? a.symbols .start is = some code ∧
      Replay.code? a'.symbols .start is' = some code ∧
      is.filterMap Item.unnamed? = is'.filterMap Item.unnamed? ∧
      Table.builtin.decode? (a.image.ram.take a.image.cursor) =
        some (code ++ [⟨"HALT", .implied, []⟩]) := by
  obtain ⟨is, last, code, hread, hsome, hunnamed, hdecode⟩ :=
    hcode.decode?_eq Table.decodable_builtin h
  obtain ⟨is', last', code', hread', hsome', hunnamed', hdecode'⟩ :=
    hcode'.decode?_eq Table.decodable_builtin h'
  rw [← hram, ← hcursor, hdecode, Option.some.injEq] at hdecode'
  obtain rfl : code = code' := List.append_cancel_right hdecode'
  exact ⟨is, last, is', last', code, hread, hread', hsome, hsome', hunnamed.trans hunnamed'.symm,
    hdecode⟩

theorem builtin_code_unique_renamed :
    ∃ a a',
      assembleTokens .builtin (tokenize "L: MOV AL,[10]\rJMP L\rHALT\rEND\r") = .ok a ∧
      assembleTokens .builtin
        (tokenize "; load\rAGAIN: MOV AL,[10] ; it\r\rX: JMP again\r HALT\r END\rrest\r") = .ok a' ∧
      a.image.ram.take 7 = [0xD1, 0x00, 0x10, 0xC0, 0xFD, 0x00, 0x00] ∧
      ∃ is last is' last' code,
        Reading .builtin (tokenize "L: MOV AL,[10]\rJMP L\rHALT\rEND\r") is last ∧
        Reading .builtin
          (tokenize "; load\rAGAIN: MOV AL,[10] ; it\r\rX: JMP again\r HALT\r END\rrest\r")
          is' last' ∧
        Replay.code? a.symbols .start is = some code ∧
        Replay.code? a'.symbols .start is' = some code ∧
        is.filterMap Item.unnamed? = is'.filterMap Item.unnamed? := by
  obtain ⟨a, ha, hram⟩ := exists_ok_of_map_toOption
    (x := assembleTokens .builtin (tokenize "L: MOV AL,[10]\rJMP L\rHALT\rEND\r"))
    (f := fun a => (a.image.ram, a.image.cursor))
    (b := ([0xD1, 0x00, 0x10, 0xC0, 0xFD, 0x00, 0x00] ++ List.replicate 249 0x00, 7))
    (by decide +kernel)
  obtain ⟨a', ha', hram'⟩ := exists_ok_of_map_toOption
    (x := assembleTokens .builtin
      (tokenize "; load\rAGAIN: MOV AL,[10] ; it\r\rX: JMP again\r HALT\r END\rrest\r"))
    (f := fun a => (a.image.ram, a.image.cursor))
    (b := ([0xD1, 0x00, 0x10, 0xC0, 0xFD, 0x00, 0x00] ++ List.replicate 249 0x00, 7))
    (by decide +kernel)
  obtain ⟨hram, hcursor⟩ := Prod.mk.inj hram
  obtain ⟨hram', hcursor'⟩ := Prod.mk.inj hram'
  obtain ⟨is, last, is', last', code, hread, hread', hcode, hcode', hsame, -⟩ :=
    builtin_code_unique ha ha'
      (onlyCode_of_forall_ne (by decide +kernel) (by decide +kernel))
      (onlyCode_of_forall_ne (by decide +kernel) (by decide +kernel))
      (hram.trans hram'.symm) (hcursor.trans hcursor'.symm)
  refine ⟨a, a', ha, ha', ?_, is, last, is', last', code, hread, hread', hcode, hcode', hsame⟩
  rw [hram]
  rfl

end Asm8
