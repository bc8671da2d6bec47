import Asm8.Proofs.References
import Asm8.Proofs.Sections

/-!
A program without `ORG` can be moved.

Where no item moves the cursor, the replay from an address is the replay from zero with every
address shifted, and its bytes lie side by side. Distances stay what they are, so that linking
succeeds at one place if it does at another, and only the bytes of absolute operands change:

    ORG a    a      ...  a + n - 1       label  l            absolute operand  l
    ORG b    b      ...  b + n - 1       label  l + b - a    absolute operand  l + b - a

No address wraps around, since `END` is placed behind every label.
-/

namespace Asm8

/-! ### Shifted replays -/

/-- The byte at an address further on. -/
def Placed.shift (c : Nat) (p : Placed) : Placed :=
  { p with address := p.address + c }

/-- The symbol at an address further on. -/
def Symbol.shift (c : Nat) (s : Symbol) : Symbol :=
  { s with address := s.address + c }

theorem Symbol.moves_shift (c : Nat) : Symbol.Moves (Symbol.shift c) :=
  ⟨fun _ => rfl, fun _ => rfl⟩

/-- All symbols at addresses further on. -/
def Symbols.shift (c : Nat) (ss : Symbols) : Symbols :=
  ss.map (Symbol.shift c)

/-- The item leaves the cursor where it is, or moves it behind its bytes: it is no `ORG`. -/
def Item.Stays (i : Item) : Prop :=
  ∀ address, i ≠ .origin address

namespace Replay

/-- The replay at addresses further on. -/
def shift (c : Nat) (r : Replay) : Replay :=
  ⟨r.cursor + c, r.placed.map (Placed.shift c), r.symbols.shift c⟩

theorem shift_emit (c : Nat) (r : Replay) (e : Emission) :
    (r.shift c).emit e = (r.emit e).shift c := by
  have hcursor : r.cursor + c + 1 = r.cursor + 1 + c := by omega
  obtain ⟨value, line⟩ := e
  cases value with
  | byte b => simp [emit, shift, Placed.shift, hcursor]
  | symbol name mode =>
    simp [emit, shift, Placed.shift, hcursor, Symbols.shift, Symbols.map, Symbols.refer,
      Symbol.shift]

theorem shift_emitAll (c : Nat) : ∀ (es : List Emission) (r : Replay),
    (r.shift c).emitAll es = (r.emitAll es).shift c
  | [], _ => rfl
  | e :: es, r => by
    rw [emitAll_cons, shift_emit, shift_emitAll c es, emitAll_cons]

theorem shift_item (c : Nat) (r : Replay) {i : Item} (h : i.Stays) :
    (r.shift c).item i = (r.item i).shift c := by
  cases i with
  | comment => rfl
  | newline => rfl
  | label name line =>
    simp [item, shift, Symbols.shift, Symbols.map, Symbols.define, Symbol.shift]
  | origin address => exact absurd rfl (h address)
  | data bytes => exact shift_emitAll c bytes r
  | instruction m s opcode operands => exact shift_emitAll c (opcode :: operands) r

/-- Items that do not move the cursor do the same at any place. -/
theorem shift_items (c : Nat) {is : List Item} (h : ∀ i ∈ is, i.Stays) :
    ∀ r : Replay, (r.shift c).items is = (r.items is).shift c := by
  induction is with
  | nil => intro r; rfl
  | cons i is ih =>
    intro r
    obtain ⟨hi, his⟩ := List.forall_mem_cons.mp h
    rw [items_cons, shift_item c r hi, ih his, items_cons]

/-- A program behind `ORG` is the program at zero, shifted. -/
theorem program_origin {t : Table} (c : UInt8) {is : List Item} (h : ∀ i ∈ is, i.Stays)
    (line : Nat) :
    program t (.origin c :: .newline :: is) line = (program t is line).shift c.toNat := by
  have hstart : start.items (.origin c :: .newline :: is) = (start.shift c.toNat).items is := by
    simp [item, shift, start, Symbols.shift, Symbols.map, Symbols.empty]
  rw [program, hstart, shift_items _ h, shift_emit, program]

/-! ### Bytes side by side -/

/-- Bytes lie side by side from zero up to the cursor, and no label stands behind it. -/
structure Packed (r : Replay) : Prop where
  placed : r.placed.map Placed.address = List.range r.cursor
  definitions : ∀ d ∈ r.symbols.definitions, d.address ≤ r.cursor

theorem Packed.emit {r : Replay} (h : r.Packed) (e : Emission) : (r.emit e).Packed := by
  refine ⟨?_, ?_⟩
  · simp [Replay.emit, h.placed, List.range_succ]
  · intro d hd
    rw [definitions_emit] at hd
    have hle := h.definitions d hd
    simp only [Replay.emit]
    omega

theorem Packed.emitAll : ∀ {r : Replay} (_ : r.Packed) (es : List Emission), (r.emitAll es).Packed
  | _, h, [] => h
  | _, h, e :: es => (h.emit e).emitAll es

theorem Packed.item {r : Replay} (h : r.Packed) {i : Item} (hi : i.Stays) :
    (r.item i).Packed := by
  cases i with
  | comment => exact h
  | newline => exact h
  | label name line =>
    refine ⟨h.placed, ?_⟩
    intro d hd
    simp only [Replay.item, Symbols.definitions_define, List.mem_append, List.mem_singleton] at hd
    rcases hd with hd | rfl
    · exact h.definitions d hd
    · exact Nat.le_refl _
  | origin address => exact absurd rfl (hi address)
  | data bytes => exact h.emitAll bytes
  | instruction m s opcode operands => exact (h.emit opcode).emitAll operands

theorem packed_items {is : List Item} (h : ∀ i ∈ is, i.Stays) :
    ∀ {r : Replay}, r.Packed → (r.items is).Packed := by
  induction is with
  | nil => intro r hr; exact hr
  | cons i is ih =>
    intro r hr
    obtain ⟨hi, his⟩ := List.forall_mem_cons.mp h
    exact ih his (hr.item hi)

theorem packed_start : start.Packed :=
  ⟨rfl, by simp [start, Symbols.definitions]⟩

/-- In a program without `ORG` every label stands before the last byte, or on it. -/
theorem packed_program {t : Table} {is : List Item} (h : ∀ i ∈ is, i.Stays) (line : Nat) :
    (program t is line).Packed ∧
      ∀ d ∈ (program t is line).symbols.definitions, d.address < (program t is line).cursor := by
  have hitems : (start.items is).Packed := packed_items h packed_start
  refine ⟨hitems.emit _, ?_⟩
  intro d hd
  exact Nat.lt_succ_of_le (hitems.definitions d hd)

theorem Packed.exists_placed {r : Replay} (h : r.Packed) {i : Nat} (hi : i < r.cursor) :
    ∃ p ∈ r.placed, p.address = i := by
  rw [← List.mem_range, ← h.placed] at hi
  exact List.mem_map.mp hi

theorem Packed.address_lt {r : Replay} (h : r.Packed) {p : Placed} (hp : p ∈ r.placed) :
    p.address < r.cursor := by
  rw [← List.mem_range, ← h.placed]
  exact List.mem_map_of_mem hp

/-! ### Rules and linking -/

theorem definitions_shift (c : Nat) (r : Replay) :
    (r.shift c).symbols.definitions = r.symbols.definitions.map (Symbol.shift c) :=
  Symbols.definitions_map (Symbol.moves_shift c) r.symbols

theorem uses_shift (c : Nat) (r : Replay) :
    (r.shift c).symbols.uses = r.symbols.uses.map (Symbol.shift c) :=
  Symbols.uses_map (Symbol.moves_shift c) r.symbols

/-- Of the rules, only the room for the bytes depends on the place. -/
theorem Packed.sound_shift {a b : Nat} {r : Replay} (h : r.Packed) (hr : (r.shift a).Sound)
    (hroom : r.cursor + b ≤ 256) : (r.shift b).Sound := by
  have hlabels := hr.labels
  have hdistinct := hr.distinct
  have hoperands := hr.operands
  rw [definitions_shift] at hlabels hdistinct
  rw [uses_shift] at hoperands
  refine ⟨?_, ?_, ?_, ?_, ?_⟩
  · intro p hp
    obtain ⟨q, hq, rfl⟩ := List.mem_map.mp hp
    have hlt := h.address_lt hq
    simp only [Placed.shift]
    omega
  · have haddress : (r.shift b).placed.map Placed.address = (List.range r.cursor).map (· + b) := by
      rw [← h.placed, shift, List.map_map, List.map_map]
      rfl
    rw [haddress]
    exact List.nodup_range.map fun x y hxy => Nat.add_right_cancel hxy
  · rw [definitions_shift]
    simpa [Symbol.shift] using hlabels
  · rw [definitions_shift]
    simpa [Function.comp_def, (Symbol.moves_shift _).key] using hdistinct
  · rw [uses_shift]
    simpa [Symbol.shift] using hoperands

end Replay

/-- Distances do not change, so that a reference is in reach at any place or at none. -/
theorem Link.exists_operandByte_shift_iff {c : Nat} {label u : Symbol} :
    (∃ b, operandByte? (label.shift c) (u.shift c) = some b) ↔
      ∃ b, operandByte? label u = some b := by
  have hdistance : displacement (label.address + c) (u.address + c) =
      displacement label.address u.address := by
    rw [displacement_eq_bmod, displacement_eq_bmod]
    congr 1
    omega
  simp only [operandByte?, Symbol.shift, hdistance]
  split <;> simp

theorem Symbols.linkable_shift_iff {c : Nat} {ss : Symbols} :
    (ss.shift c).Linkable ↔ ss.Linkable := by
  have hf := Symbol.moves_shift c
  have hdefined : (∀ u ∈ (ss.shift c).uses, (ss.shift c).isDefined u.name) ↔
      ∀ u ∈ ss.uses, ss.isDefined u.name := by
    simp only [shift, uses_map hf, isDefined_map hf, List.forall_mem_map, hf.name]
  have hreach : (∀ p ∈ Link.pairs (ss.shift c), ∃ b, Link.operandByte? p.1 p.2 = some b) ↔
      ∀ p ∈ Link.pairs ss, ∃ b, Link.operandByte? p.1 p.2 = some b := by
    simp only [shift, pairs_map hf, List.forall_mem_map, Prod.map_fst, Prod.map_snd,
      Link.exists_operandByte_shift_iff]
  exact ⟨fun h => ⟨hdefined.mp h.defined, hreach.mp h.reach⟩,
    fun h => ⟨hdefined.mpr h.defined, hreach.mpr h.reach⟩⟩

theorem Symbols.address?_shift (c : Nat) (ss : Symbols) (name : String) :
    (ss.shift c).address? name = (ss.address? name).map (· + c) := by
  rw [address?, shift, definition?_map (Symbol.moves_shift c), address?, Option.map_map,
    Option.map_map]
  rfl

/-! ### Bytes at other places -/

/-- An absolute symbol operand stands at the address. -/
def Symbols.AbsoluteAt (ss : Symbols) (address : Nat) : Prop :=
  ∃ u ∈ ss.entries, u.role = .reference .absolute ∧ u.address = address

instance (ss : Symbols) (address : Nat) : Decidable (ss.AbsoluteAt address) :=
  inferInstanceAs (Decidable (∃ u ∈ ss.entries,
    u.role = .reference .absolute ∧ u.address = address))

theorem Replay.Reached.absoluteAt_iff {r : Replay} (h : r.Reached) (hr : r.Sound) {p : Placed}
    (hp : p ∈ r.placed) :
    r.symbols.AbsoluteAt p.address ↔ ∃ name, p.value = .symbol name .absolute := by
  constructor
  · rintro ⟨u, hu, hrole, haddress⟩
    obtain ⟨q, hq, hv, hqu⟩ := h.exists_placed hu hrole
    have hqp : q = p := List.inj_on_of_nodup_map hr.once hq hp (hqu.trans haddress)
    exact ⟨u.name, hqp ▸ hv⟩
  · rintro ⟨name, hv⟩
    have huse : ⟨name, .reference .absolute, p.address, p.line⟩ ∈ r.symbols.uses := by
      rw [h.uses]
      exact List.mem_filterMap.mpr ⟨p, hp, by simp [Placed.reference?, hv]⟩
    exact ⟨_, (Symbols.mem_uses.mp huse).1, rfl, rfl⟩

/-- The byte of an absolute symbol counts from another place, and any other byte stays. -/
theorem Value.byte?_shift {ss : Symbols} {address a b : Nat} {v : Value} {x y : UInt8}
    (hx : v.byte? (ss.shift a) (address + a) = some x)
    (hy : v.byte? (ss.shift b) (address + b) = some y) :
    ((∀ name, v ≠ .symbol name .absolute) → x = y) ∧
      ∀ name, v = .symbol name .absolute → ∃ label, ss.address? name = some label ∧
        x = UInt8.ofNat (label + a) ∧ y = UInt8.ofNat (label + b) := by
  cases v with
  | byte c =>
    cases hx
    cases hy
    exact ⟨fun _ => rfl, fun _ h => by cases h⟩
  | symbol name mode =>
    cases mode with
    | relative =>
      simp only [byte?, Symbols.address?_shift, Option.map_map] at hx hy
      obtain ⟨label, hlabel, rfl⟩ := Option.map_eq_some_iff.mp hx
      rw [hlabel] at hy
      cases hy
      refine ⟨fun _ => ?_, fun _ h => by cases h⟩
      simp only [Function.comp_apply]
      congr 1
      omega
    | absolute =>
      simp only [byte?, Symbols.address?_shift, Option.map_map] at hx hy
      obtain ⟨label, hlabel, rfl⟩ := Option.map_eq_some_iff.mp hx
      rw [hlabel] at hy
      cases hy
      refine ⟨fun h => absurd rfl (h name), ?_⟩
      rintro _ ⟨⟩
      exact ⟨label, hlabel, rfl, rfl⟩

/-! ### Programs behind `ORG` -/

/-- The tokens are `ORG` with this address, alone on a line. -/
def IsOriginLine (address : UInt8) (toks : List Token) : Prop :=
  ∃ w arg nl : Token, toks = [w, arg, nl] ∧ w.kind = .word "ORG" ∧
    arg.kind.hex? = some address ∧ nl.kind = .newline

/-- No statement of the program that the tokens write is `ORG`. -/
def NoOrigin (t : Table) (toks : List Token) : Prop :=
  ∀ is last, Reading t toks is last → ∀ i ∈ is, i.Stays

theorem IsOriginLine.spell {t : Table} {address : UInt8} {xs : List Token}
    (h : IsOriginLine address xs) :
    Spell t [.origin address, .newline] xs ∧
      Mark.fresh.after? [.origin address, .newline] = some .fresh := by
  obtain ⟨w, arg, nl, rfl, hw, harg, hnl⟩ := h
  exact ⟨.cons (.origin hw harg) (.cons (.newline hnl) .nil), rfl⟩

/-- `ORG` on a line of its own is read apart from the rest. -/
theorem IsOriginLine.reading {t : Table} {address : UInt8} {xs toks : List Token} {is : List Item}
    {last : Token} (h : IsOriginLine address xs) (hr : Reading t (xs ++ toks) is last) :
    ∃ ks, is = .origin address :: .newline :: ks ∧ Reading t toks ks last := by
  have hspell := (h.spell (t := t)).1
  obtain ⟨w, arg, nl, rfl, hw, harg, hnl⟩ := h
  have hgoesOn : ∀ tok ∈ [w, arg], tok.kind ≠ .word endMnemonic := by
    intro tok htok heq
    rcases List.mem_pair.mp htok with rfl | rfl
    · rw [hw] at heq
      exact absurd (Kind.word.inj heq) (by decide)
    · have hnone : (Kind.word endMnemonic).hex? = none := by decide
      rw [heq, hnone] at harg
      cases harg
  have hsplit : Reading t ([w, arg] ++ nl :: toks) is last := hr
  obtain ⟨js, ks, rfl, hjs, -, hks⟩ := hsplit.split hnl hgoesOn
  have hsame : [w, arg] ++ [nl] ++ [last] = [w, arg, nl] ++ [last] := rfl
  obtain ⟨rfl, -⟩ := hjs.unique hspell hr.ends hr.ends hsame
  exact ⟨ks, rfl, hks⟩

/-- A program behind `ORG` that has no other `ORG` assembles to the replay from zero, shifted. -/
theorem IsOriginLine.shows {t : Table} {address : UInt8} {xs toks : List Token} {x : Assembly}
    (h : IsOriginLine address xs) (hno : NoOrigin t toks)
    (hx : assembleTokens t (xs ++ toks) = .ok x) :
    ∃ is last, Reading t toks is last ∧ (∀ i ∈ is, i.Stays) ∧
      ((Replay.program t is last.line).shift address.toNat).Sound ∧
      ((Replay.program t is last.line).shift address.toNat).Reached ∧
      ((Replay.program t is last.line).shift address.toNat).Shows x := by
  obtain ⟨is, last, hread, hsound, -, hshows⟩ := assembleTokens_shows hx
  obtain ⟨ks, rfl, hks⟩ := h.reading hread
  have hstays := hno ks last hks
  have hreached := Replay.reached_program t (.origin address :: .newline :: ks) last.line
  rw [Replay.program_origin address hstays] at hsound hshows hreached
  exact ⟨ks, last, hks, hstays, hsound, hreached, hshows⟩

/-- A program behind `ORG` assembles where its bytes have room, if it assembles anywhere. -/
theorem IsOriginLine.exists_assembly {t : Table} {a b : UInt8} {xs ys toks : List Token}
    {is : List Item} {last : Token} {x : Assembly} (hx : IsOriginLine a xs) (hy : IsOriginLine b ys)
    (hread : Reading t toks is last) (hstays : ∀ i ∈ is, i.Stays)
    (h : assembleTokens t (xs ++ toks) = .ok x)
    (hroom : (Replay.program t is last.line).cursor + b.toNat ≤ 256) :
    ∃ y, assembleTokens t (ys ++ toks) = .ok y := by
  obtain ⟨hspell, hfresh⟩ := hx.spell (t := t)
  obtain ⟨hsound, hlinkable⟩ := (hread.prepend hspell hfresh).exists_assembly_iff.mp ⟨x, h⟩
  obtain ⟨hspell', hfresh'⟩ := hy.spell (t := t)
  refine (hread.prepend hspell' hfresh').exists_assembly_iff.mpr ?_
  simp only [List.cons_append, List.nil_append, Replay.program_origin _ hstays]
    at hsound hlinkable ⊢
  refine ⟨(Replay.packed_program hstays last.line).1.sound_shift hsound hroom, ?_⟩
  exact Symbols.linkable_shift_iff.mpr (Symbols.linkable_shift_iff.mp hlinkable)

/-- An `ORG` among the items has its word among the tokens. -/
theorem Spell.exists_word_of_origin {t : Table} {is : List Item} {xs : List Token} {address : UInt8}
    (h : Spell t is xs) (hi : .origin address ∈ is) : ∃ w ∈ xs, w.kind = .word "ORG" := by
  obtain ⟨ys, hys, hsub⟩ := h.exists_subset _ hi
  cases hys with
  | origin hw harg => exact ⟨_, hsub List.mem_cons_self, hw⟩

/-- Where no token is the word `ORG`, no statement is. -/
theorem noOrigin_of_forall_ne {t : Table} {toks : List Token}
    (h : ∀ tok ∈ toks, tok.kind ≠ .word "ORG") : NoOrigin t toks := by
  rintro is last hread _ hi address rfl
  obtain ⟨xs, rest, rfl, hspell⟩ := hread.tokens
  obtain ⟨w, hw, hkind⟩ := hspell.exists_word_of_origin hi
  exact h w (List.mem_append_left _ hw) hkind

/-! ### Relocation -/

namespace Replay

variable {r : Replay} {a b : Nat} {x y : Assembly}

/-- The used addresses of a program whose bytes lie side by side. -/
theorem Packed.used_iff (h : r.Packed) (hshows : (r.shift a).Shows x) (i : Nat) :
    x.image.used[i]? = some true ↔ a ≤ i ∧ i < a + r.cursor := by
  constructor
  · intro hused
    by_contra hout
    have hlt := Image.lt_of_used hused
    have hfree : ∀ p ∈ (r.shift a).placed, p.address ≠ i := by
      rintro _ hp rfl
      obtain ⟨q, hq, rfl⟩ := List.mem_map.mp hp
      have hq := h.address_lt hq
      simp only [Placed.shift] at hout
      omega
    rw [(hshows.unused i hlt hfree).2.1] at hused
    cases hused
  · rintro ⟨hle, hlt⟩
    obtain ⟨p, hp, haddress⟩ := h.exists_placed (show i - a < r.cursor by omega)
    obtain ⟨b, -, -, hused, -⟩ := hshows.written (p.shift a) (List.mem_map_of_mem hp)
    have hi : (p.shift a).address = i := by
      simp only [Placed.shift, haddress]
      omega
    rwa [hi] at hused

theorem Packed.cursor_le (h : r.Packed) (hr : (r.shift a).Sound) (ha : a ≤ 256) :
    a + r.cursor ≤ 256 := by
  rcases Nat.eq_zero_or_pos r.cursor with hzero | hpos
  · omega
  · obtain ⟨p, hp, haddress⟩ := h.exists_placed (Nat.sub_lt hpos Nat.one_pos)
    have hlt := hr.inside (p.shift a) (List.mem_map_of_mem hp)
    simp only [Placed.shift] at hlt
    omega

end Replay

/-- An interval of used addresses has as many bytes as it is long. -/
theorem Image.count_used {m : Image} {a n : Nat} (hroom : a + n ≤ 256)
    (h : ∀ i : Nat, m.used[i]? = some true ↔ a ≤ i ∧ i < a + n) : m.used.count true = n := by
  have hlength : m.used.length = 256 := by simp [used]
  have hused : m.used = List.replicate a false ++ List.replicate n true ++
      List.replicate (256 - (a + n)) false := by
    refine List.ext_getElem (by simp [hlength]; omega) fun i hi _ => ?_
    have hi' := h i
    rw [List.getElem?_eq_getElem hi, Option.some.injEq] at hi'
    rw [Bool.eq_iff_iff, hi']
    simp only [List.getElem_append, List.length_append, List.length_replicate,
      List.getElem_replicate]
    split_ifs <;> simp <;> omega
  rw [hused]
  simp [List.count_replicate]

/-- The symbol is the same, at a distance. -/
structure Symbol.MovedBy (k : Int) (s s' : Symbol) : Prop where
  name : s'.name = s.name
  role : s'.role = s.role
  line : s'.line = s.line
  address : (s'.address : Int) = s.address + k

/-- `y` is `x` with its `n` bytes moved from `a` to `b`. -/
structure Assembly.Relocated (x y : Assembly) (a b n : Nat) : Prop where
  /-- the addresses from `b` on are written, `n` of them, and no other -/
  used : ∀ i : Nat, y.image.used[i]? = some true ↔ b ≤ i ∧ i < b + n
  cursor : y.image.cursor = b + n
  symbols : List.Forall₂ (Symbol.MovedBy (b - a)) x.symbols.entries y.symbols.entries
  /-- every byte stays, if it is not that of an absolute operand -/
  bytes : ∀ i < n, ¬x.symbols.AbsoluteAt (a + i) →
    ∃ u, x.image.ram[a + i]? = some u ∧ y.image.ram[b + i]? = some u
  /-- the byte of an absolute operand moves with its label -/
  absolute : ∀ i < n, x.symbols.AbsoluteAt (a + i) →
    ∃ u v : UInt8, x.image.ram[a + i]? = some u ∧ y.image.ram[b + i]? = some v ∧
      (v.toNat : Int) = u.toNat + (b - a)
  lines : ∀ i < n, y.lines[b + i]? = x.lines[a + i]?

/-- Two assemblies of one replay, from two places. -/
theorem Replay.Packed.relocated {r : Replay} {a b : Nat} {x y : Assembly} (h : r.Packed)
    (hlabels : ∀ d ∈ r.symbols.definitions, d.address < r.cursor) (ha : a + r.cursor ≤ 256)
    (hb : b + r.cursor ≤ 256) (hr : (r.shift a).Sound) (hreached : (r.shift a).Reached)
    (hx : (r.shift a).Shows x) (hy : (r.shift b).Shows y) : x.Relocated y a b r.cursor := by
  -- each address in reach is that of one byte, which both assemblies show
  have hbyte : ∀ i < r.cursor, ∃ p ∈ r.placed, p.address = i ∧ ∃ u v,
      p.value.byte? (r.symbols.shift a) (p.address + a) = some u ∧
      p.value.byte? (r.symbols.shift b) (p.address + b) = some v ∧
      x.image.ram[a + i]? = some u ∧ y.image.ram[b + i]? = some v ∧
      y.lines[b + i]? = x.lines[a + i]? := by
    intro i hi
    obtain ⟨p, hp, rfl⟩ := h.exists_placed hi
    obtain ⟨u, hu, hram, -, hline⟩ := hx.written (p.shift a) (List.mem_map_of_mem hp)
    obtain ⟨v, hv, hram', -, hline'⟩ := hy.written (p.shift b) (List.mem_map_of_mem hp)
    rw [Nat.add_comm a, Nat.add_comm b]
    exact ⟨p, hp, rfl, u, v, hu, hv, hram, hram', hline'.trans hline.symm⟩
  have habsolute : ∀ p ∈ r.placed, x.symbols.AbsoluteAt (a + p.address) ↔
      ∃ name, p.value = .symbol name .absolute := by
    intro p hp
    rw [hx.symbols, Nat.add_comm]
    exact hreached.absoluteAt_iff hr (p := p.shift a) (List.mem_map_of_mem hp)
  refine ⟨h.used_iff hy, by rw [hy.cursor, shift, Nat.add_comm], ?_, ?_, ?_, ?_⟩
  · rw [hx.symbols, hy.symbols]
    refine List.forall₂_map_left_iff.mpr (List.forall₂_map_right_iff.mpr ?_)
    refine List.forall₂_same.mpr fun s _ => ⟨rfl, rfl, rfl, ?_⟩
    simp only [Symbol.shift]
    omega
  · intro i hi hfixed
    obtain ⟨p, hp, rfl, u, v, hu, hv, hram, hram', -⟩ := hbyte i hi
    rw [habsolute p hp] at hfixed
    have huv : u = v := (Value.byte?_shift hu hv).1 fun name hv => hfixed ⟨name, hv⟩
    exact ⟨u, hram, huv ▸ hram'⟩
  · intro i hi hmoves
    obtain ⟨p, hp, rfl, u, v, hu, hv, hram, hram', -⟩ := hbyte i hi
    obtain ⟨name, hvalue⟩ := (habsolute p hp).mp hmoves
    obtain ⟨label, hlabel, rfl, rfl⟩ := (Value.byte?_shift hu hv).2 name hvalue
    obtain ⟨d, hd, rfl⟩ := Option.map_eq_some_iff.mp hlabel
    -- the label stands before the last byte, so that neither sum wraps around
    have hlt := hlabels d (List.mem_of_find?_eq_some hd)
    refine ⟨_, _, hram, hram', ?_⟩
    rw [UInt8.toNat_ofNat', UInt8.toNat_ofNat']
    omega
  · intro i hi
    obtain ⟨p, -, -, u, v, -, -, -, -, hline⟩ := hbyte i hi
    exact hline

/-- A program without `ORG` that assembles behind one `ORG` assembles behind any other that leaves
room for its bytes, and is there the same program, relocated. -/
theorem assembleTokens_relocate {t : Table} {a b : UInt8} {xs ys toks : List Token} {x : Assembly}
    (hx : IsOriginLine a xs) (hy : IsOriginLine b ys) (hno : NoOrigin t toks)
    (h : assembleTokens t (xs ++ toks) = .ok x)
    (hroom : b.toNat + x.image.used.count true ≤ 256) :
    ∃ y, assembleTokens t (ys ++ toks) = .ok y ∧
      x.Relocated y a.toNat b.toNat (x.image.used.count true) := by
  obtain ⟨is, last, hread, hstays, hsound, hreached, hshows⟩ := hx.shows hno h
  obtain ⟨hpacked, hlabels⟩ := Replay.packed_program (t := t) hstays last.line
  have hfits := hpacked.cursor_le hsound (Nat.le_of_lt a.toNat_lt)
  rw [Image.count_used hfits (hpacked.used_iff hshows)] at hroom ⊢
  obtain ⟨y, hasm⟩ := hx.exists_assembly hy hread hstays h (by omega)
  obtain ⟨is', last', hread', -, -, -, hshows'⟩ := hy.shows hno hasm
  obtain ⟨rfl, rfl⟩ := hread.unique hread'
  exact ⟨y, hasm, hpacked.relocated hlabels hfits hroom hsound hreached hshows hshows'⟩

theorem assembleTokens_relocate_jumps :
    ∃ x y,
      assembleTokens .jumps (tokenize "ORG 10\r" ++ tokenize "L: JMP L\rJPA M\rM: END\r") = .ok x ∧
      (x.image.ram.drop 0x10).take 5 = [0xC0, 0x00, 0xC7, 0x14, 0x00] ∧
      x.symbols.AbsoluteAt 0x13 ∧
      assembleTokens .jumps (tokenize "ORG FB\r" ++ tokenize "L: JMP L\rJPA M\rM: END\r") = .ok y ∧
      x.Relocated y 0x10 0xFB 5 := by
  obtain ⟨x, hx, hfacts⟩ := exists_ok_of_map_toOption
    (x := assembleTokens .jumps
      (tokenize "ORG 10\r" ++ tokenize "L: JMP L\rJPA M\rM: END\r"))
    (f := fun x => ((x.image.ram.drop 0x10).take 5, x.image.used.count true,
      decide (x.symbols.AbsoluteAt 0x13)))
    (b := ([0xC0, 0x00, 0xC7, 0x14, 0x00], 5, true)) (by decide +kernel)
  obtain ⟨hram, hfacts⟩ := Prod.mk.inj hfacts
  obtain ⟨hcount, habsolute⟩ := Prod.mk.inj hfacts
  have hno : NoOrigin .jumps (tokenize "L: JMP L\rJPA M\rM: END\r") :=
    noOrigin_of_forall_ne (by decide +kernel)
  have hroom : (0xFB : UInt8).toNat + x.image.used.count true ≤ 256 := by
    rw [hcount]
    decide
  have hten : IsOriginLine 0x10 (tokenize "ORG 10\r") :=
    ⟨⟨.word "ORG", 1, 1⟩, ⟨.word "10", 1, 5⟩, ⟨.newline, 1, 7⟩, by decide +kernel, rfl,
      by decide +kernel, rfl⟩
  have hlast : IsOriginLine 0xFB (tokenize "ORG FB\r") :=
    ⟨⟨.word "ORG", 1, 1⟩, ⟨.word "FB", 1, 5⟩, ⟨.newline, 1, 7⟩, by decide +kernel, rfl,
      by decide +kernel, rfl⟩
  obtain ⟨y, hy, hrelocated⟩ := assembleTokens_relocate hten hlast hno hx hroom
  rw [hcount] at hrelocated
  exact ⟨x, y, hx, hram, of_decide_eq_true habsolute, hy, hrelocated⟩

end Asm8
