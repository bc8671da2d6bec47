import Asm8.Proofs.Assembled
import Asm8.Proofs.Readings

/-!
Sections of a program commute.

A section begins with `ORG`, so that its replay forgets where the cursor stood: it places the same
bytes and notes the same symbols wherever it stands in the program. Two sections in another order
give a replay with the same bytes and symbols in another order, and neither the rules nor linking
look at that order.

    ORG a  s₁   ORG b  s₂   ORG c  rest          placed   p₁ p₂ p     symbols   d₁ d₂ d
    ORG b  s₂   ORG a  s₁   ORG c  rest          placed   p₂ p₁ p     symbols   d₂ d₁ d
-/

namespace Asm8

/-! ### Orders that do not matter -/

/-- Where keys differ, the element with a key is found in any order. -/
theorem find?_key_eq_of_perm {α κ : Type} [DecidableEq κ] {key : α → κ} {l l' : List α}
    (h : l.Perm l') (hn : (l.map key).Nodup) (k : κ) :
    l.find? (key · = k) = l'.find? (key · = k) := by
  cases hfind : l.find? (key · = k) with
  | some a =>
    have hkey : key a = k := by simpa using List.find?_some hfind
    have hmem := h.mem_iff.mp (List.mem_of_find?_eq_some hfind)
    rw [← hkey, find?_key_eq_some ((h.map key).nodup_iff.mp hn) hmem]
  | none =>
    rw [List.find?_eq_none] at hfind
    refine (List.find?_eq_none.mpr fun a ha => ?_).symm
    exact hfind a (h.mem_iff.mpr ha)

/-- Linking does not depend on the order of the symbols. -/
theorem Symbols.Linkable.perm {ss ss' : Symbols} (h : ss.entries.Perm ss'.entries)
    (hl : ss.Linkable) : ss'.Linkable := by
  have hdefs : ss.definitions.Perm ss'.definitions := h.filter _
  have huses : ss.uses.Perm ss'.uses := h.filter _
  refine ⟨fun u hu => ?_, ?_⟩
  · have hdefined := hl.defined u (huses.mem_iff.mpr hu)
    rw [← Bool.not_eq_false, isDefined_eq_false] at hdefined ⊢
    rwa [← (hdefs.map Symbol.key).mem_iff]
  · rintro ⟨label, u⟩ hp
    obtain ⟨hd, hu, hkey⟩ := Link.mem_pairs.mp hp
    exact hl.reach _ (Link.mem_pairs.mpr ⟨hdefs.mem_iff.mpr hd, huses.mem_iff.mpr hu, hkey⟩)

namespace Replay

/-- Two replays stand at the same place, with the same bytes and symbols in some order. -/
structure Similar (r r' : Replay) : Prop where
  cursor : r.cursor = r'.cursor
  placed : r.placed.Perm r'.placed
  entries : r.symbols.entries.Perm r'.symbols.entries

theorem Similar.emit {r r' : Replay} (h : r.Similar r') (e : Emission) :
    (r.emit e).Similar (r'.emit e) := by
  obtain ⟨value, line⟩ := e
  refine ⟨by simp [Replay.emit, h.cursor], ?_, ?_⟩
  · rw [Replay.emit, Replay.emit, h.cursor]
    exact h.placed.append_right _
  · cases value with
    | byte b => exact h.entries
    | symbol name mode =>
      simp only [Replay.emit, Symbols.entries_refer, h.cursor]
      exact h.entries.append_right _

theorem Similar.definitions {r r' : Replay} (h : r.Similar r') :
    r.symbols.definitions.Perm r'.symbols.definitions :=
  h.entries.filter _

theorem Similar.uses {r r' : Replay} (h : r.Similar r') :
    r.symbols.uses.Perm r'.symbols.uses :=
  h.entries.filter _

/-- The rules do not depend on the order. -/
theorem Similar.sound {r r' : Replay} (h : r.Similar r') (hr : r.Sound) : r'.Sound := by
  constructor
  · intro p hp
    exact hr.inside p (h.placed.mem_iff.mpr hp)
  · exact (h.placed.map _).nodup_iff.mp hr.once
  · intro d hd
    exact hr.labels d (h.definitions.mem_iff.mpr hd)
  · exact (h.definitions.map _).nodup_iff.mp hr.distinct
  · intro u hu
    exact hr.operands u (h.uses.mem_iff.mpr hu)

/-- The label of a name has the same address. -/
theorem Similar.address?_eq {r r' : Replay} (h : r.Similar r') (hr : r.Sound) (name : String) :
    r.symbols.address? name = r'.symbols.address? name := by
  rw [Symbols.address?, Symbols.address?, Symbols.definition?, Symbols.definition?,
    find?_key_eq_of_perm h.definitions hr.distinct]

theorem Similar.byte?_eq {r r' : Replay} (h : r.Similar r') (hr : r.Sound) (address : Nat)
    (v : Value) : v.byte? r.symbols address = v.byte? r'.symbols address := by
  cases v with
  | byte b => rfl
  | symbol name mode => cases mode <;> simp only [Value.byte?, h.address?_eq hr name]

theorem Similar.at?_eq {r r' : Replay} (h : r.Similar r') (hr : r.Sound) (a : Nat) :
    r.at? a = r'.at? a :=
  find?_key_eq_of_perm h.placed hr.once a

end Replay

theorem Image.ext_get? {m m' : Image} (hc : m.cursor = m'.cursor)
    (h : ∀ a, m.get? a = m'.get? a) : m = m' := by
  obtain ⟨cells, cursor⟩ := m
  obtain ⟨cells', cursor'⟩ := m'
  cases hc
  congr 1
  apply Vector.ext
  intro a ha
  simpa [get?_of_lt ha] using h a

/-- Similar replays have one finished image. -/
theorem Replay.Similar.image_eq {r r' : Replay} {m m' : Image} (h : r.Similar r') (hr : r.Sound)
    (hm : r.Links m) (hm' : r'.Links m') : m = m' := by
  refine Image.ext_get? (by rw [hm.cursor, hm'.cursor, h.cursor]) fun a => ?_
  cases hat : r.at? a with
  | none => rw [hm.free a hat, hm'.free a (h.at?_eq hr a ▸ hat)]
  | some p =>
    have hp : p ∈ r.placed := List.mem_of_find?_eq_some hat
    have ha : p.address = a := by simpa using List.find?_some hat
    obtain ⟨b, hb, hget⟩ := hm.bytes p hp
    obtain ⟨b', hb', hget'⟩ := hm'.bytes p (h.placed.mem_iff.mp hp)
    rw [h.byte?_eq hr, hb'] at hb
    rw [← ha, hget, hget', Option.some.inj hb]

/-! ### When tokens assemble -/

/-- Tokens assemble exactly when their reading obeys the rules and its symbols can be linked. -/
theorem Reading.exists_assembly_iff {t : Table} {toks : List Token} {is : List Item} {last : Token}
    (h : Reading t toks is last) :
    (∃ a, assembleTokens t toks = .ok a) ↔
      (Replay.program t is last.line).Sound ∧ (Replay.program t is last.line).symbols.Linkable := by
  constructor
  · rintro ⟨a, ha⟩
    obtain ⟨e, he, hlink⟩ := bind_ok_iff.mp ha
    obtain ⟨is', last', hread, hsound, hfits⟩ := encode_reading he
    obtain ⟨rfl, rfl⟩ := h.unique hread
    refine ⟨hsound, ?_⟩
    rw [← hfits.symbols]
    split at hlink
    · simp at hlink
    · next image hnone => exact exists_link_iff.mp ⟨image, hnone⟩
  · rintro ⟨hsound, hlinkable⟩
    obtain ⟨e, he⟩ := exists_encode h hsound
    obtain ⟨is', last', hread, -, hfits⟩ := encode_reading he
    obtain ⟨rfl, rfl⟩ := h.unique hread
    rw [← hfits.symbols] at hlinkable
    obtain ⟨image, hlink⟩ := (exists_link_iff (m := e.image)).mpr hlinkable
    exact ⟨_, bind_ok_iff.mpr ⟨e, he, by rw [hlink]⟩⟩

/-- Assemblies of similar readings differ in the order of their symbols only. -/
theorem Reading.assembly_eq {t : Table} {toks toks' : List Token} {is is' : List Item}
    {last : Token} {a a' : Assembly} (h : Reading t toks is last) (h' : Reading t toks' is' last)
    (hs : (Replay.program t is last.line).Similar (Replay.program t is' last.line))
    (ha : assembleTokens t toks = .ok a) (ha' : assembleTokens t toks' = .ok a') :
    a.image = a'.image ∧ a.lines = a'.lines ∧ a.symbols.entries.Perm a'.symbols.entries := by
  obtain ⟨_, _, hread, hsound, hlinks, hsymbols, hlines⟩ := assembleTokens_reading ha
  obtain ⟨rfl, rfl⟩ := h.unique hread
  obtain ⟨_, _, hread', -, hlinks', hsymbols', hlines'⟩ := assembleTokens_reading ha'
  obtain ⟨rfl, rfl⟩ := h'.unique hread'
  refine ⟨hs.image_eq hsound hlinks hlinks', ?_, ?_⟩
  · apply Vector.ext
    intro x hx
    have hjoin := hlines x
    rw [hs.at?_eq hsound, ← hlines'] at hjoin
    simpa [hx] using hjoin
  · rw [hsymbols, hsymbols']
    exact hs.entries

/-! ### Sections -/

namespace Replay

/-- Nothing placed, and the cursor at an address. -/
def startAt (c : Nat) : Replay := ⟨c, [], .empty⟩

/-- What a second replay adds to a first one. -/
def append (r q : Replay) : Replay :=
  ⟨q.cursor, r.placed ++ q.placed, ⟨r.symbols.entries ++ q.symbols.entries⟩⟩

theorem append_emit (r q : Replay) (e : Emission) : (r.append q).emit e = r.append (q.emit e) := by
  obtain ⟨value, line⟩ := e
  cases value <;> simp [append, emit, Symbols.refer]

theorem append_emitAll (r : Replay) : ∀ (es : List Emission) (q : Replay),
    (r.append q).emitAll es = r.append (q.emitAll es)
  | [], _ => rfl
  | e :: es, q => by
    rw [emitAll_cons, append_emit, append_emitAll r es]
    rfl

theorem append_item (r q : Replay) (i : Item) : (r.append q).item i = r.append (q.item i) := by
  cases i with
  | comment => rfl
  | newline => rfl
  | label name line => simp [append, item, Symbols.define]
  | origin address => rfl
  | data bytes => exact append_emitAll r bytes q
  | instruction m s opcode operands => exact append_emitAll r (opcode :: operands) q

theorem append_items (r : Replay) : ∀ (is : List Item) (q : Replay),
    (r.append q).items is = r.append (q.items is)
  | [], _ => rfl
  | i :: is, q => by
    rw [items_cons, append_item, append_items r is]
    rfl

/-- What begins with `ORG` adds the same to any replay. -/
theorem items_origin (r : Replay) (address : UInt8) (is : List Item) :
    r.items (.origin address :: is) = r.append ((startAt address.toNat).items is) := by
  rw [← append_items, items_cons]
  simp [item, append, startAt]

/-- Two sections before a third may change places. -/
theorem similar_sections (r : Replay) (a₁ a₂ a₃ : UInt8) (is₁ is₂ is₃ : List Item) :
    (r.items (.origin a₁ :: is₁ ++ (.origin a₂ :: is₂ ++ .origin a₃ :: is₃))).Similar
      (r.items (.origin a₂ :: is₂ ++ (.origin a₁ :: is₁ ++ .origin a₃ :: is₃))) := by
  rw [items_append, items_append, items_append, items_append]
  simp only [items_origin]
  refine ⟨rfl, ?_, ?_⟩
  · simp only [append, List.append_assoc]
    rw [← List.append_assoc (startAt a₁.toNat |>.items is₁).placed,
      ← List.append_assoc (startAt a₂.toNat |>.items is₂).placed]
    exact (List.perm_append_comm.append_right _).append_left _
  · simp only [append, List.append_assoc]
    rw [← List.append_assoc (startAt a₁.toNat |>.items is₁).symbols.entries,
      ← List.append_assoc (startAt a₂.toNat |>.items is₂).symbols.entries]
    exact (List.perm_append_comm.append_right _).append_left _

end Replay

/-- The tokens begin with `ORG` and its address, and no label stands before it. -/
def StartsSection (toks : List Token) : Prop :=
  ∃ w arg rest address, toks = w :: arg :: rest ∧ w.kind = .word "ORG" ∧
    arg.kind.hex? = some address

/-- The tokens are a section: they begin with `ORG`, end with a newline, and `END` is not among
them. -/
structure IsSection (toks : List Token) : Prop where
  starts : StartsSection toks
  closed : ∃ xs nl, toks = xs ++ [nl] ∧ nl.kind = .newline
  goesOn : ∀ tok ∈ toks, tok.kind ≠ .word endMnemonic

/-- The first item of a section is its `ORG`. -/
theorem StartsSection.exists_origin {t : Table} {is : List Item} {xs rest : List Token}
    (h : StartsSection (xs ++ rest)) (hne : xs ≠ []) (hsp : Spell t is xs) :
    ∃ address js, is = .origin address :: js := by
  obtain ⟨w, arg, more, address, heq, hw, harg⟩ := h
  cases hsp with
  | nil => exact absurd rfl hne
  | @cons i is xs ys hi _ =>
    rw [List.append_assoc] at heq
    obtain ⟨rfl, -⟩ := hi.unique (.origin hw harg) heq
    exact ⟨address, is, rfl⟩

theorem StartsSection.exists_origin_of_reading {t : Table} {toks : List Token} {is : List Item}
    {last : Token} (h : StartsSection toks) (hr : Reading t toks is last) :
    ∃ address js, is = .origin address :: js := by
  obtain ⟨xs, rest, rfl, hsp⟩ := hr.tokens
  refine h.exists_origin ?_ hsp
  rintro rfl
  obtain ⟨w, arg, more, address, heq, hw, -⟩ := h
  have hlast := hr.ends
  rw [(List.cons.inj heq).1, hw] at hlast
  exact absurd (Kind.word.inj hlast) (by decide)

/-- A section in front of other tokens is read apart from them. -/
theorem IsSection.reading {t : Table} {xs toks : List Token} {is : List Item} {last : Token}
    (h : IsSection xs) (hr : Reading t (xs ++ toks) is last) :
    ∃ address js ks, is = .origin address :: js ++ ks ∧ Spell t (.origin address :: js) xs ∧
      Mark.fresh.after? (.origin address :: js) = some .fresh ∧ Reading t toks ks last := by
  obtain ⟨ys, nl, rfl, hnl⟩ := h.closed
  rw [List.append_assoc, List.singleton_append] at hr
  obtain ⟨js, ks, rfl, hsp, hfresh, hks⟩ :=
    hr.split hnl fun tok htok => h.goesOn tok (List.mem_append_left _ htok)
  have hstarts : StartsSection (ys ++ [nl] ++ []) := by simpa using h.starts
  obtain ⟨address, js', rfl⟩ := hstarts.exists_origin (by simp) hsp
  exact ⟨address, js', ks, rfl, hsp, hfresh, hks⟩

/-- With two sections changed, tokens still read as items, and the replays are similar. -/
theorem IsSection.swap_reading {t : Table} {xs ys toks : List Token} {is : List Item} {last : Token}
    (hx : IsSection xs) (hy : IsSection ys) (htoks : StartsSection toks)
    (h : Reading t (xs ++ (ys ++ toks)) is last) :
    ∃ is', Reading t (ys ++ (xs ++ toks)) is' last ∧
      (Replay.program t is last.line).Similar (Replay.program t is' last.line) := by
  obtain ⟨a₁, is₁, ks, rfl, hsp₁, hfresh₁, hks⟩ := hx.reading h
  obtain ⟨a₂, is₂, ls, rfl, hsp₂, hfresh₂, hls⟩ := hy.reading hks
  obtain ⟨a₃, is₃, rfl⟩ := htoks.exists_origin_of_reading hls
  exact ⟨_, (hls.prepend hsp₁ hfresh₁).prepend hsp₂ hfresh₂,
    (Replay.similar_sections .start a₁ a₂ a₃ is₁ is₂ is₃).emit _⟩

theorem IsSection.exists_assembly_swap {t : Table} {xs ys toks : List Token} (hx : IsSection xs)
    (hy : IsSection ys) (htoks : StartsSection toks)
    (h : ∃ a, assembleTokens t (xs ++ (ys ++ toks)) = .ok a) :
    ∃ a, assembleTokens t (ys ++ (xs ++ toks)) = .ok a := by
  obtain ⟨a, ha⟩ := h
  obtain ⟨is, last, hread, -⟩ := assembleTokens_reading ha
  obtain ⟨is', hread', hsimilar⟩ := hx.swap_reading hy htoks hread
  obtain ⟨hsound, hlinkable⟩ := hread.exists_assembly_iff.mp ⟨a, ha⟩
  exact hread'.exists_assembly_iff.mpr ⟨hsimilar.sound hsound, hlinkable.perm hsimilar.entries⟩

/-- Two sections before a third may change places: the tokens assemble in both orders or in none, and
the image and the lines are the same, while the symbols are the same up to their order. -/
theorem assembleTokens_sections_comm {t : Table} {xs ys toks : List Token} (hx : IsSection xs)
    (hy : IsSection ys) (htoks : StartsSection toks) :
    ((∃ a, assembleTokens t (xs ++ ys ++ toks) = .ok a) ↔
      ∃ a, assembleTokens t (ys ++ xs ++ toks) = .ok a) ∧
    ∀ a a', assembleTokens t (xs ++ ys ++ toks) = .ok a →
      assembleTokens t (ys ++ xs ++ toks) = .ok a' →
      a.image = a'.image ∧ a.lines = a'.lines ∧ a.symbols.entries.Perm a'.symbols.entries := by
  rw [List.append_assoc, List.append_assoc]
  refine ⟨⟨hx.exists_assembly_swap hy htoks, hy.exists_assembly_swap hx htoks⟩, ?_⟩
  intro a a' ha ha'
  obtain ⟨is, last, hread, -⟩ := assembleTokens_reading ha
  obtain ⟨is', hread', hsimilar⟩ := hx.swap_reading hy htoks hread
  exact hread.assembly_eq hread' hsimilar ha ha'

/-- A section of two lines, with a label and a jump to another one. -/
def jumpSection (line : Nat) (address label target : String) : List Token :=
  [⟨.word "ORG", line, 1⟩, ⟨.word address, line, 5⟩, ⟨.newline, line, 7⟩,
   ⟨.label label, line + 1, 1⟩, ⟨.word "JMP", line + 1, 4⟩, ⟨.word target, line + 1, 8⟩,
   ⟨.newline, line + 1, 9⟩]

/-- A last section that only ends the program. -/
def endSection (line : Nat) : List Token :=
  [⟨.word "ORG", line, 1⟩, ⟨.word "00", line, 5⟩, ⟨.newline, line, 7⟩, ⟨.word "END", line + 1, 1⟩]

theorem isSection_jumpSection (line : Nat) {address label target : String}
    (ha : (Text.hexByte? address).isSome) (ht : target ≠ endMnemonic) :
    IsSection (jumpSection line address label target) := by
  have hne : address ≠ endMnemonic := by
    rintro rfl
    exact absurd ha (by decide)
  obtain ⟨b, hb⟩ := Option.isSome_iff_exists.mp ha
  refine ⟨⟨_, _, _, b, rfl, rfl, hb⟩,
    ⟨(jumpSection line address label target).dropLast, ⟨.newline, line + 1, 9⟩, rfl, rfl⟩, ?_⟩
  simp_all [jumpSection, endMnemonic]

theorem assembleTokens_sections_comm_jumps :
    IsSection (jumpSection 1 "10" "L" "M") ∧ IsSection (jumpSection 3 "20" "M" "L") ∧
    StartsSection (endSection 5) ∧ ∃ a a',
      assembleTokens .jumps
        (jumpSection 1 "10" "L" "M" ++ jumpSection 3 "20" "M" "L" ++ endSection 5) = .ok a ∧
      assembleTokens .jumps
        (jumpSection 3 "20" "M" "L" ++ jumpSection 1 "10" "L" "M" ++ endSection 5) = .ok a' ∧
      (a.image.ram.drop 0x10).take 2 = [0xC0, 0x10] ∧
      (a.image.ram.drop 0x20).take 2 = [0xC0, 0xF0] ∧
      a.image = a'.image ∧ a.lines = a'.lines ∧ a.symbols ≠ a'.symbols ∧
      a.symbols.entries.Perm a'.symbols.entries := by
  have hx : IsSection (jumpSection 1 "10" "L" "M") := isSection_jumpSection 1 (by decide) (by decide)
  have hy : IsSection (jumpSection 3 "20" "M" "L") := isSection_jumpSection 3 (by decide) (by decide)
  have he : StartsSection (endSection 5) := ⟨_, _, _, 0, rfl, rfl, by decide⟩
  obtain ⟨hiff, heq⟩ := assembleTokens_sections_comm (t := .jumps) hx hy he
  obtain ⟨a, ha, hfacts⟩ := exists_ok_of_map_toOption
    (x := assembleTokens .jumps
      (jumpSection 1 "10" "L" "M" ++ jumpSection 3 "20" "M" "L" ++ endSection 5))
    (f := fun a => ((a.image.ram.drop 0x10).take 2, (a.image.ram.drop 0x20).take 2,
      a.symbols.entries.head?.map Symbol.name))
    (b := ([0xC0, 0x10], [0xC0, 0xF0], some "L")) (by decide +kernel)
  obtain ⟨a', ha', hfirst⟩ := exists_ok_of_map_toOption
    (x := assembleTokens .jumps
      (jumpSection 3 "20" "M" "L" ++ jumpSection 1 "10" "L" "M" ++ endSection 5))
    (f := fun a => a.symbols.entries.head?.map Symbol.name) (b := some "M") (by decide +kernel)
  obtain ⟨himage, hlines, hperm⟩ := heq a a' ha ha'
  simp only [Prod.mk.injEq] at hfacts
  refine ⟨hx, hy, he, a, a', ha, ha', hfacts.1, hfacts.2.1, himage, hlines, ?_, hperm⟩
  intro hsymbols
  rw [← hsymbols, hfacts.2.2] at hfirst
  exact absurd hfirst (by decide)

end Asm8
