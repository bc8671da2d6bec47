import Asm8.Proofs.Assembled

/-!
What the bytes of references become.

A relative reference sits right behind the opcode of the jump that makes it. Its byte, read in two's
complement and counted from that opcode, leads to the label:

    opcode   operand    ...    label
    a - 1       a                x         (a - 1) + signed (ram a) = x

An absolute reference holds the address of the label itself. There is one address that does not fit:
a label behind the last byte of the memory stands at 256, and a reference to it holds 0.
-/

namespace Asm8

/-! ### Where placed bytes come from -/

/-- The bytes that an item asks for. -/
def Item.emissions : Item → List Emission
  | .data bytes => bytes
  | .instruction _ _ opcode operands => opcode :: operands
  | .comment | .newline | .label _ _ | .origin _ => []

namespace Replay

theorem placed_item (r : Replay) (i : Item) :
    (r.item i).placed = r.placed ++ placeFrom r.cursor i.emissions := by
  cases i with
  | data bytes => exact placed_emitAll bytes r
  | instruction m s opcode operands => exact placed_emitAll (opcode :: operands) r
  | _ => simp [item, Item.emissions, placeFrom]

/-- Every byte is placed by one of the items, from where the items before it leave the cursor. -/
theorem mem_placed_items {p : Placed} : ∀ {is : List Item} {r : Replay},
    p ∈ (r.items is).placed → p ∈ r.placed ∨
      ∃ js i ks, is = js ++ i :: ks ∧ p ∈ placeFrom (r.items js).cursor i.emissions
  | [], _, h => .inl h
  | i :: is, r, h => by
    rcases mem_placed_items (r := r.item i) h with h | ⟨js, j, ks, rfl, hj⟩
    · rw [placed_item, List.mem_append] at h
      rcases h with h | h
      · exact .inl h
      · exact .inr ⟨[], i, is, rfl, h⟩
    · exact .inr ⟨i :: js, j, ks, rfl, hj⟩

/-- What an item places stays placed. -/
theorem mem_placed_of_mem {p : Placed} {r : Replay} {js ks : List Item} {i : Item}
    (h : p ∈ placeFrom (r.items js).cursor i.emissions) :
    p ∈ (r.items (js ++ i :: ks)).placed := by
  rw [items_append, items_cons]
  apply (extends_items ks _).placed.subset
  rw [placed_item]
  exact List.mem_append_right _ h

theorem mem_placed_program {t : Table} {line : Nat} {p : Placed} {js ks : List Item} {i : Item}
    (h : p ∈ placeFrom (start.items js).cursor i.emissions) :
    p ∈ (program t (js ++ i :: ks) line).placed :=
  List.mem_append_left _ (mem_placed_of_mem h)

theorem mem_of_mem_placeFrom {p : Placed} : ∀ {es : List Emission} {c : Nat},
    p ∈ placeFrom c es → p.toEmission ∈ es
  | e :: es, c, h => by
    rcases List.mem_cons.mp h with rfl | h
    · exact List.mem_cons_self
    · exact List.mem_cons_of_mem _ (mem_of_mem_placeFrom h)

end Replay

/-- Every item has its tokens among those of all. -/
theorem Spell.exists_subset {t : Table} {is : List Item} {xs : List Token} (h : Spell t is xs) :
    ∀ i ∈ is, ∃ ys, i.Spells t ys ∧ ys ⊆ xs := by
  induction h with
  | nil => simp
  | cons hspells _ ih =>
    rw [List.forall_mem_cons]
    refine ⟨⟨_, hspells, List.subset_append_left _ _⟩, ?_⟩
    intro i hi
    obtain ⟨ys, hys, hsub⟩ := ih i hi
    exact ⟨ys, hys, List.subset_append_of_subset_right _ hsub⟩

theorem Spell.exists_spells {t : Table} {is : List Item} {xs : List Token} (h : Spell t is xs) :
    ∀ i ∈ is, ∃ ys, i.Spells t ys := by
  intro i hi
  obtain ⟨ys, hys, -⟩ := h.exists_subset i hi
  exact ⟨ys, hys⟩

/-- Only the class of offsets asks for a relative symbol. -/
theorem Class.offset_mem_of_relative {ks : List Class} {toks : List Token} {e : Emission}
    {name : String} (h : e ∈ Class.emissions ks toks) (hv : e.value = .symbol name .relative) :
    .offset ∈ ks := by
  obtain ⟨⟨k, tok⟩, hmem, he⟩ := List.mem_filterMap.mp h
  have hk : k = .offset := by
    cases k <;> simp only [Class.emission?, Option.map_eq_some_iff, Option.some.injEq] at he
    case offset => rfl
    case absolute => rw [← he] at hv; cases hv
    case hex => obtain ⟨b, -, rfl⟩ := he; cases hv
    case register => obtain ⟨r, -, rfl⟩ := he; cases hv
    all_goals cases he
  exact hk ▸ (List.of_mem_zip hmem).1

theorem Shape.eq_offset_of_mem {s : Shape} (h : .offset ∈ s.classes) : s = .offset := by
  revert h
  cases s <;> decide

/-- A relative symbol is placed by a jump, right behind its opcode. -/
theorem Item.Spells.relative {t : Table} {i : Item} {ys : List Token} {c : Nat} {p : Placed}
    {name : String} (h : i.Spells t ys) (hp : p ∈ Replay.placeFrom c i.emissions)
    (hv : p.value = .symbol name .relative) :
    ∃ m opcode line operand, i = .instruction m .offset ⟨.byte opcode, line⟩ [operand] ∧
      p = ⟨operand, c + 1⟩ := by
  have hmem := Replay.mem_of_mem_placeFrom hp
  cases h with
  | data hw hb =>
    obtain ⟨b, -, hb⟩ := List.mem_map.mp hmem
    rw [← hb] at hv
    cases hv
  | @instruction w m g s opcode toks hw hm hg hs ho hc =>
    rcases List.mem_cons.mp hmem with heq | hmem
    · rw [heq] at hv; cases hv
    · cases Shape.eq_offset_of_mem (Class.offset_mem_of_relative hmem hv)
      obtain ⟨tok, rfl⟩ : ∃ tok, toks = [tok] := by
        cases hc with
        | cons _ hc => cases hc; exact ⟨_, rfl⟩
      have hpair : p ∈ [(⟨⟨.byte opcode, w.line⟩, c⟩ : Placed),
          ⟨⟨.symbol tok.kind.spelling .relative, tok.line⟩, c + 1⟩] := hp
      rcases List.mem_pair.mp hpair with rfl | rfl
      · cases hv
      · exact ⟨m, opcode, w.line, _, rfl, rfl⟩
  | _ => exact absurd hmem (by simp [Item.emissions])

/-! ### References of an assembly -/

theorem Symbols.mem_uses {ss : Symbols} {u : Symbol} :
    u ∈ ss.uses ↔ u ∈ ss.entries ∧ ∃ mode, u.role = .reference mode := by
  simp only [uses, List.mem_filter, Symbol.isDefinition]
  cases u.role <;> simp

/-- A reference is the entry of a placed symbol. -/
theorem Replay.Reached.exists_placed {r : Replay} (h : r.Reached) {u : Symbol} {mode : Mode}
    (hu : u ∈ r.symbols.entries) (hrole : u.role = .reference mode) :
    ∃ p ∈ r.placed, p.value = .symbol u.name mode ∧ p.address = u.address := by
  have huse : u ∈ r.symbols.uses := Symbols.mem_uses.mpr ⟨hu, mode, hrole⟩
  rw [h.uses, List.mem_filterMap] at huse
  obtain ⟨p, hp, href⟩ := huse
  refine ⟨p, hp, ?_, (Placed.address_of_reference? href).symm⟩
  unfold Placed.reference? at href
  split at href
  · cases href
  · next name mode' hv =>
    cases href
    cases hrole
    exact hv

/-- A relative symbol of a reading is the operand of a jump, whose opcode stands right before it. -/
theorem Reading.exists_jump {t : Table} {toks : List Token} {items : List Item} {last : Token}
    {p : Placed} {name : String} (h : Reading t toks items last)
    (hp : p ∈ (Replay.program t items last.line).placed)
    (hv : p.value = .symbol name .relative) :
    ∃ is m opcode line operand js,
      items = is ++ .instruction m .offset ⟨.byte opcode, line⟩ [operand] :: js ∧
      p = ⟨operand, (Replay.start.items is).cursor + 1⟩ ∧
      ⟨⟨.byte opcode, line⟩, (Replay.start.items is).cursor⟩ ∈
        (Replay.program t items last.line).placed := by
  -- the byte of `END` is no symbol, so that the symbol comes from an item
  have hitems : p ∈ (Replay.start.items items).placed := by
    rcases List.mem_append.mp hp with hp | hp
    · exact hp
    · rw [List.mem_singleton.mp hp] at hv; cases hv
  obtain hp₀ | ⟨is, i, js, rfl, hi⟩ := Replay.mem_placed_items hitems
  · cases hp₀
  obtain ⟨xs, rest, -, hsp⟩ := h.tokens
  obtain ⟨ys, hys⟩ := hsp.exists_spells i (by simp)
  obtain ⟨m, opcode, line, operand, rfl, rfl⟩ := hys.relative hi hv
  refine ⟨is, m, opcode, line, operand, js, rfl, rfl, ?_⟩
  exact Replay.mem_placed_program List.mem_cons_self

/-- A label stands in the memory, or right behind a used last byte. -/
theorem Replay.Reached.address_le {r : Replay} (h : r.Reached) (hr : r.Sound) {d : Symbol}
    (hd : d ∈ r.symbols.definitions) :
    d.address ≤ 255 ∨ d.address = 256 ∧ ∃ p ∈ r.placed, p.address = 255 := by
  rcases h.definitions d hd with hlt | ⟨p, hp, heq⟩
  · exact .inl (by omega)
  · have hinside := hr.inside p hp
    by_cases hlast : p.address = 255
    · exact .inr ⟨by omega, p, hp, hlast⟩
    · exact .inl (by omega)

/-- In the memory a distance is that of the addresses. -/
theorem Replay.Reached.displacement_eq {r : Replay} (h : r.Reached) (hr : r.Sound) {p : Placed}
    (hp : p ∈ r.placed) {name : String} {label : Nat} (hlabel : r.symbols.address? name = some label) :
    Link.displacement label p.address = (label : Int) - p.address + 1 := by
  obtain ⟨d, hd, rfl⟩ := Option.map_eq_some_iff.mp hlabel
  have hinside := hr.inside p hp
  have hle := h.address_le hr (List.mem_of_find?_eq_some hd)
  exact Link.displacement_eq (by omega) (by omega)

/-- What linking writes for a distance that fits into a byte is read back in two's complement. -/
theorem toInt_ofInt_of_mem {d : Int} (h : -128 ≤ d ∧ d ≤ 127) :
    (UInt8.ofInt d).toInt8.toInt = d := by
  have hmod : (d % (2 ^ 8)).bmod Int8.size = d.bmod Int8.size := Int.emod_bmod d Int8.size
  rw [UInt8.ofInt, UInt8.toInt8_ofNat', Int8.toInt_ofNat', Int.toNat_of_nonneg (by omega), hmod]
  exact Int.bmod_eq_of_le (by simp [Int8.size]; omega) (by simp [Int8.size]; omega)

/-- A relative reference sits right behind the opcode of the jump that makes it, and its byte in two's
complement leads from that opcode to the label of its name. -/
theorem relative_reference_reaches_label {t : Table} {toks : List Token} {a : Assembly} {u : Symbol}
    (h : assembleTokens t toks = .ok a) (hu : u ∈ a.symbols.entries)
    (hrole : u.role = .reference .relative) :
    ∃ is m opcode line operand js last label b,
      Reading t toks (is ++ .instruction m .offset ⟨.byte opcode, line⟩ [operand] :: js) last ∧
      operand.value = .symbol u.name .relative ∧
      (Replay.start.items is).cursor + 1 = u.address ∧
      a.image.ram[u.address - 1]? = some opcode ∧
      a.image.ram[u.address]? = some b ∧
      a.symbols.address? u.name = some label ∧
      ((u.address : Int) - 1) + b.toInt8.toInt = label := by
  obtain ⟨items, last, hread, hsound, hlinks, hshows⟩ := assembleTokens_shows h
  have hreached := Replay.reached_program t items last.line
  rw [hshows.symbols] at hu
  obtain ⟨p, hp, hv, haddress⟩ := hreached.exists_placed hu hrole
  obtain ⟨is, m, opcode, line, operand, js, rfl, rfl, hopcode⟩ := hread.exists_jump hp hv
  obtain ⟨b₀, hb₀, hram₀, -⟩ := hshows.written _ hopcode
  obtain ⟨b, hb, hram, -⟩ := hshows.written _ hp
  rw [hv] at hb
  obtain ⟨label, hlabel, hbyte⟩ := Option.map_eq_some_iff.mp hb
  have hreach := toInt_ofInt_of_mem (hlinks.reach _ hp _ hv label hlabel)
  refine ⟨is, m, opcode, line, operand, js, last, label, b, hread, hv, haddress, ?_, ?_, ?_, ?_⟩
  · cases hb₀
    rw [← haddress]
    exact hram₀
  · rw [← haddress]
    exact hram
  · rw [hshows.symbols]
    exact hlabel
  · rw [hreached.displacement_eq hsound hp hlabel, hbyte] at hreach
    rw [← haddress, hreach]
    omega

theorem relative_reference_reaches_label_back : ∃ a,
    assembleTokens .jumps (tokenize "L: ORG 80\rJMP L\rEND\r") = .ok a ∧
    ⟨"L", .reference .relative, 0x81, 2⟩ ∈ a.symbols.entries ∧
    ∃ label b, a.image.ram[0x81]? = some b ∧ a.symbols.address? "L" = some label ∧
      ((0x81 : Nat) : Int) - 1 + b.toInt8.toInt = label := by
  obtain ⟨a, ha, hsymbols⟩ := exists_ok_of_map_toOption
    (x := assembleTokens .jumps (tokenize "L: ORG 80\rJMP L\rEND\r"))
    (f := fun a => a.symbols)
    (b := ⟨[⟨"L", .definition, 0, 1⟩, ⟨"L", .reference .relative, 0x81, 2⟩]⟩) (by decide +kernel)
  have hmem : ⟨"L", .reference .relative, 0x81, 2⟩ ∈ a.symbols.entries := by
    rw [hsymbols]; decide
  obtain ⟨is, m, opcode, line, operand, js, last, label, b, -, -, -, -, hram, hlabel, heq⟩ :=
    relative_reference_reaches_label ha hmem rfl
  exact ⟨a, ha, hmem, label, b, hram, hlabel, heq⟩

/-! ### Addresses behind the last byte -/

/-- Labels stand in the memory, except that a label behind the last byte, which is then used, stands
at 256. An absolute reference holds the address of its label, and 0 in place of 256. -/
theorem absolute_reference_eq_address {t : Table} {source : String} {a : Assembly}
    (h : assemble t source = .ok a) :
    (∀ d ∈ a.symbols.definitions,
      d.address ≤ 255 ∨ d.address = 256 ∧ a.image.used[255]? = some true) ∧
    ∀ u ∈ a.symbols.entries, u.role = .reference .absolute →
      ∃ label b, a.symbols.address? u.name = some label ∧ a.image.ram[u.address]? = some b ∧
        (label ≤ 255 → b.toNat = label) ∧ (label = 256 → b = 0) := by
  obtain ⟨items, last, -, hsound, -, hshows⟩ := assembleTokens_shows h
  have hreached := Replay.reached_program t items last.line
  refine ⟨?_, ?_⟩
  · intro d hd
    rw [hshows.symbols] at hd
    rcases hreached.address_le hsound hd with hle | ⟨heq, p, hp, hlast⟩
    · exact .inl hle
    · obtain ⟨b, -, -, hused, -⟩ := hshows.written p hp
      exact .inr ⟨heq, hlast ▸ hused⟩
  · intro u hu hrole
    rw [hshows.symbols] at hu
    obtain ⟨p, hp, hv, haddress⟩ := hreached.exists_placed hu hrole
    obtain ⟨b, hb, hram, -⟩ := hshows.written p hp
    rw [hv] at hb
    obtain ⟨label, hlabel, rfl⟩ := Option.map_eq_some_iff.mp hb
    refine ⟨label, _, hshows.symbols ▸ hlabel, haddress ▸ hram, ?_, ?_⟩
    · intro hle
      rw [UInt8.toNat_ofNat']
      omega
    · rintro rfl
      rfl

theorem absolute_reference_eq_address_jumps : ∃ a,
    assemble .jumps "ORG FF\rL: DB 01\rM:\rORG 00\rJPA L\rJPA M\rEND\r" = .ok a ∧
    a.image.ram.take 4 = [0xC7, 0xFF, 0xC7, 0x00] ∧
    (∀ d ∈ a.symbols.definitions,
      d.address ≤ 255 ∨ d.address = 256 ∧ a.image.used[255]? = some true) ∧
    ∀ u ∈ a.symbols.entries, u.role = .reference .absolute →
      ∃ label b, a.symbols.address? u.name = some label ∧ a.image.ram[u.address]? = some b ∧
        (label ≤ 255 → b.toNat = label) ∧ (label = 256 → b = 0) := by
  obtain ⟨a, ha, hram⟩ := exists_ok_of_map_toOption
    (x := assemble .jumps "ORG FF\rL: DB 01\rM:\rORG 00\rJPA L\rJPA M\rEND\r")
    (f := fun a => a.image.ram.take 4) (b := [0xC7, 0xFF, 0xC7, 0x00]) (by decide +kernel)
  exact ⟨a, ha, hram, absolute_reference_eq_address ha⟩

/-- A label may stand at 256, where no byte of the memory is, and a jump to it holds another address
than that of its label. -/
theorem label_behind_last_byte : Table.read "000;C0;JMP OFFSET\n001;C7;JPA ABSOLUTE" = .ok .jumps ∧
    ∃ a, assemble .jumps "ORG FF\rDB 01\rL:\rORG 00\rJPA L\rEND\r" = .ok a ∧
      ⟨"L", .definition, 256, 3⟩ ∈ a.symbols.definitions ∧
      ⟨"L", .reference .absolute, 1, 5⟩ ∈ a.symbols.entries ∧
      a.symbols.address? "L" = some 256 ∧ a.image.ram[1]? = some 0 := by
  obtain ⟨a, ha, hfacts⟩ := exists_ok_of_map_toOption
    (x := assemble .jumps "ORG FF\rDB 01\rL:\rORG 00\rJPA L\rEND\r")
    (f := fun a => (a.symbols, a.image.ram[1]?))
    (b := (⟨[⟨"L", .definition, 256, 3⟩, ⟨"L", .reference .absolute, 1, 5⟩]⟩, some 0))
    (by decide +kernel)
  obtain ⟨hsymbols, hram⟩ := Prod.mk.inj hfacts
  refine ⟨Table.read_jumps, a, ha, ?_, ?_, ?_, hram⟩
  · rw [hsymbols]; decide
  · rw [hsymbols]; decide
  · rw [hsymbols]; decide +kernel

end Asm8
