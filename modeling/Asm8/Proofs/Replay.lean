import Asm8.Proofs.Statement
import Mathlib.Data.List.Nodup

/-!
Replaying a program, item by item.

A replay keeps a cursor, the bytes placed so far and the symbols met so far. It never fails and
looks at no rule: a label records the cursor, `ORG` moves it, and every byte that an item asks for is
placed at the cursor, which then moves on. Whether the program obeys the rules is a property of the
replay as a whole (`Sound`): every byte lies in the image and on a place of its own, labels differ,
and the names of labels and symbols are allowed.

    item     cursor    placed          symbols
    label    c         -               + definition at c
    ORG a    a         -               -
    n bytes  c + n     + c .. c+n-1    + a reference for each symbol among them
-/

namespace Asm8

/-- Where keys differ, looking for the key of an element finds the element. -/
theorem find?_key_eq_some {α κ : Type} [DecidableEq κ] {key : α → κ} {l : List α}
    (hn : (l.map key).Nodup) {a : α} (ha : a ∈ l) : l.find? (key · = key a) = some a := by
  obtain ⟨b, hb⟩ := Option.isSome_iff_exists.mp
    (List.find?_isSome.mpr ⟨a, ha, by simp⟩ : (l.find? (key · = key a)).isSome)
  have hkey : key b = key a := by simpa using List.find?_some hb
  rw [hb, List.inj_on_of_nodup_map hn (List.mem_of_find?_eq_some hb) ha hkey]

/-! ### Names -/

namespace Name

/-- A label is no number, and holds no reserved and no control character. -/
def LabelAllowed (name : String) : Prop :=
  Text.isHexByte name = false ∧
    ∀ c ∈ name.toList, c ∉ reserved ∧ Text.isControl c = false

/-- A symbol is not one or two upper-case digits, and holds no reserved character, no colon and no
control character. -/
def SymbolAllowed (name : String) : Prop :=
  isUpperHex name = false ∧
    ∀ c ∈ name.toList, c ∉ reserved ∧ c ≠ ':' ∧ Text.isControl c = false

theorem refusedFrom?_eq_none {forbidden : List Char} {name : String} :
    refusedFrom? forbidden name = none ↔
      ∀ c ∈ name.toList, c ∉ forbidden ∧ Text.isControl c = false := by
  simp only [refusedFrom?, Option.orElse_eq_orElse, Option.orElse_eq_or, Option.or_eq_none_iff,
    List.find?_eq_none, List.contains_iff_mem, Bool.not_eq_true]
  constructor
  · rintro ⟨hf, hc⟩ c hmem
    exact ⟨fun h => hf c h hmem, hc c hmem⟩
  · intro h
    exact ⟨fun c hf hmem => (h c hmem).1 hf, fun c hmem => (h c hmem).2⟩

theorem labelAllowed_iff {name : String} :
    LabelAllowed name ↔ Text.isHexByte name = false ∧ refusedInLabel? name = none := by
  rw [LabelAllowed, refusedInLabel?, refusedFrom?_eq_none]

theorem symbolAllowed_iff {name : String} :
    SymbolAllowed name ↔ isUpperHex name = false ∧ refusedInSymbol? name = none := by
  rw [SymbolAllowed, refusedInSymbol?, refusedFrom?_eq_none]
  simp [not_or, and_assoc]

end Name

/-! ### Symbols -/

namespace Symbols

/-- The references, without their places among all entries. -/
def uses (ss : Symbols) : List Symbol :=
  ss.entries.filter fun e => !e.isDefinition

@[simp] theorem definitions_define (ss : Symbols) (name : String) (address line : Nat) :
    (ss.define name address line).definitions =
      ss.definitions ++ [⟨name, .definition, address, line⟩] := by
  simp [definitions, Symbol.isDefinition]

@[simp] theorem definitions_refer (ss : Symbols) (name : String) (mode : Mode)
    (address line : Nat) : (ss.refer name mode address line).definitions = ss.definitions := by
  simp [definitions, Symbol.isDefinition]

@[simp] theorem uses_define (ss : Symbols) (name : String) (address line : Nat) :
    (ss.define name address line).uses = ss.uses := by
  simp [uses, Symbol.isDefinition]

@[simp] theorem uses_refer (ss : Symbols) (name : String) (mode : Mode) (address line : Nat) :
    (ss.refer name mode address line).uses =
      ss.uses ++ [⟨name, .reference mode, address, line⟩] := by
  simp [uses, Symbol.isDefinition]

theorem isDefined_eq_false {ss : Symbols} {name : String} :
    ss.isDefined name = false ↔ Text.upper name ∉ ss.definitions.map Symbol.key := by
  simp [isDefined, definition?, List.find?_eq_none]

end Symbols

/-! ### Placed bytes -/

/-- A byte that was asked for, at its address. -/
structure Placed extends Emission where
  address : Nat
  deriving DecidableEq, Repr

namespace Placed

/-- The entry that a placed symbol leaves among the symbols. -/
def reference? (p : Placed) : Option Symbol :=
  match p.value with
  | .byte _ => none
  | .symbol name mode => some ⟨name, .reference mode, p.address, p.line⟩

end Placed

namespace Value

/-- The byte before linking: a symbol holds the low byte of its own address. -/
def draft (address : Nat) : Value → UInt8
  | byte b => b
  | symbol _ _ => UInt8.ofNat address

/-- The byte in the finished image. A symbol becomes the address of its label modulo 256, or the
distance from the byte before the operand to the label in two's complement. -/
def byte? (ss : Symbols) (address : Nat) : Value → Option UInt8
  | byte b => some b
  | symbol name .absolute => (ss.address? name).map UInt8.ofNat
  | symbol name .relative =>
    (ss.address? name).map fun label : Nat => UInt8.ofInt ((label : Int) - (address : Int) + 1)

/-- A byte may always be placed, a symbol if its name is allowed. -/
def Allowed : Value → Prop
  | byte _ => True
  | symbol name _ => Name.SymbolAllowed name

end Value

/-! ### Replays -/

/-- A program replayed so far. -/
structure Replay where
  cursor : Nat
  placed : List Placed
  symbols : Symbols
  deriving DecidableEq, Repr

namespace Replay

/-- Nothing placed, and the cursor at zero. -/
def start : Replay := ⟨0, [], .empty⟩

/-- Place a byte at the cursor and move on. A symbol is noted with its place. -/
def emit (r : Replay) (e : Emission) : Replay where
  cursor := r.cursor + 1
  placed := r.placed ++ [⟨e, r.cursor⟩]
  symbols :=
    match e.value with
    | .byte _ => r.symbols
    | .symbol name mode => r.symbols.refer name mode r.cursor e.line

@[simp] theorem definitions_emit (r : Replay) (e : Emission) :
    (r.emit e).symbols.definitions = r.symbols.definitions := by
  obtain ⟨value, line⟩ := e
  cases value <;> simp [emit]

/-- Place bytes one after the other. -/
def emitAll (r : Replay) (es : List Emission) : Replay :=
  es.foldl emit r

/-- Replay one item. -/
def item (r : Replay) : Item → Replay
  | .comment | .newline => r
  | .label name line => { r with symbols := r.symbols.define name r.cursor line }
  | .origin address => { r with cursor := address.toNat }
  | .data bytes => r.emitAll bytes
  | .instruction _ _ opcode operands => (r.emit opcode).emitAll operands

/-- Replay items in order. -/
def items (r : Replay) (is : List Item) : Replay :=
  is.foldl item r

/-- The byte placed at an address. -/
def at? (r : Replay) (a : Nat) : Option Placed :=
  r.placed.find? (·.address = a)

@[simp] theorem emitAll_nil (r : Replay) : r.emitAll [] = r := rfl

@[simp] theorem emitAll_cons (r : Replay) (e : Emission) (es : List Emission) :
    r.emitAll (e :: es) = (r.emit e).emitAll es := rfl

@[simp] theorem items_nil (r : Replay) : r.items [] = r := rfl

@[simp] theorem items_cons (r : Replay) (i : Item) (is : List Item) :
    r.items (i :: is) = (r.item i).items is := rfl

theorem items_append (r : Replay) (is js : List Item) :
    r.items (is ++ js) = (r.items is).items js := by
  simp [items]

theorem emitAll_append (r : Replay) (es fs : List Emission) :
    r.emitAll (es ++ fs) = (r.emitAll es).emitAll fs := by
  simp [emitAll]

/-- Emissions on consecutive addresses. -/
def placeFrom (address : Nat) : List Emission → List Placed
  | [] => []
  | e :: es => ⟨e, address⟩ :: placeFrom (address + 1) es

theorem cursor_emitAll : ∀ (es : List Emission) (r : Replay),
    (r.emitAll es).cursor = r.cursor + es.length
  | [], _ => rfl
  | e :: es, r => by rw [emitAll_cons, cursor_emitAll es]; simp [emit]; omega

theorem placed_emitAll : ∀ (es : List Emission) (r : Replay),
    (r.emitAll es).placed = r.placed ++ placeFrom r.cursor es
  | [], r => by simp [placeFrom]
  | e :: es, r => by rw [emitAll_cons, placed_emitAll es]; simp [emit, placeFrom]

/-- The symbols depend on the place where the bytes start and not on the bytes before. -/
theorem symbols_emitAll : ∀ (es : List Emission) (r r' : Replay), r.cursor = r'.cursor →
    r.symbols = r'.symbols → (r.emitAll es).symbols = (r'.emitAll es).symbols
  | [], _, _, _, hs => hs
  | e :: es, r, r', hc, hs => by
    refine symbols_emitAll es (r.emit e) (r'.emit e) (by simp [emit, hc]) ?_
    simp only [emit, hs, hc]

theorem at?_eq_none_iff {r : Replay} {a : Nat} :
    r.at? a = none ↔ a ∉ r.placed.map Placed.address := by
  simp [at?, List.find?_eq_none]

theorem at?_emit (r : Replay) (e : Emission) (a : Nat) :
    (r.emit e).at? a = (r.at? a).or (if r.cursor = a then some ⟨e, r.cursor⟩ else none) := by
  rw [at?, at?, emit, List.find?_append, List.find?_singleton]
  simp only [decide_eq_true_eq]

/-! ### Rules -/

/-- The rules that a program must obey, read off its replay. -/
structure Sound (r : Replay) : Prop where
  /-- every byte lies in the image -/
  inside : ∀ p ∈ r.placed, p.address < 256
  /-- no address is written twice -/
  once : (r.placed.map Placed.address).Nodup
  /-- the names of labels are allowed -/
  labels : ∀ d ∈ r.symbols.definitions, Name.LabelAllowed d.name
  /-- no two labels have one name in upper case -/
  distinct : (r.symbols.definitions.map Symbol.key).Nodup
  /-- the names of symbols are allowed -/
  operands : ∀ u ∈ r.symbols.uses, Name.SymbolAllowed u.name

theorem sound_start : start.Sound := by
  constructor <;> simp [start, Symbols.definitions, Symbols.uses]

/-- The rules speak of addresses and symbols only. -/
theorem sound_congr {r r' : Replay}
    (hp : r.placed.map Placed.address = r'.placed.map Placed.address)
    (hs : r.symbols = r'.symbols) : r.Sound ↔ r'.Sound := by
  have hinside : ∀ q : Replay, (∀ p ∈ q.placed, p.address < 256) ↔
      ∀ a ∈ q.placed.map Placed.address, a < 256 := by simp
  constructor
  · intro h
    exact ⟨(hinside r').mpr (hp ▸ (hinside r).mp h.inside), hp ▸ h.once, hs ▸ h.labels,
      hs ▸ h.distinct, hs ▸ h.operands⟩
  · intro h
    exact ⟨(hinside r).mpr (hp ▸ (hinside r').mp h.inside), hp ▸ h.once, hs ▸ h.labels,
      hs ▸ h.distinct, hs ▸ h.operands⟩

/-- A placed byte is the one found at its address. -/
theorem Sound.at?_address {r : Replay} (h : r.Sound) {p : Placed} (hp : p ∈ r.placed) :
    r.at? p.address = some p :=
  find?_key_eq_some h.once hp

/-- One more byte keeps the rules if the cursor stands on a free place of the image. -/
theorem sound_emit_iff {r : Replay} (h : r.Sound) {e : Emission} :
    (r.emit e).Sound ↔ r.cursor < 256 ∧ r.at? r.cursor = none ∧ e.value.Allowed := by
  have huses : (∀ u ∈ (r.emit e).symbols.uses, Name.SymbolAllowed u.name) ↔ e.value.Allowed := by
    obtain ⟨value, line⟩ := e
    cases value with
    | byte b => simpa [emit, Value.Allowed] using h.operands
    | symbol name mode =>
      simp only [emit, Symbols.uses_refer, List.mem_append, List.mem_singleton, Value.Allowed]
      constructor
      · intro hu
        exact hu ⟨name, .reference mode, r.cursor, line⟩ (.inr rfl)
      · rintro hname u (hu | rfl)
        · exact h.operands u hu
        · exact hname
  have hdefs := definitions_emit r e
  have hmap : (r.emit e).placed.map Placed.address = r.placed.map Placed.address ++ [r.cursor] := by
    simp [emit]
  rw [at?_eq_none_iff]
  constructor
  · intro hs
    refine ⟨hs.inside ⟨e, r.cursor⟩ (by simp [emit]), ?_, huses.mp hs.operands⟩
    have honce := hs.once
    rw [hmap, List.nodup_append] at honce
    exact fun hmem => honce.2.2 _ hmem _ (List.mem_singleton_self _) rfl
  · rintro ⟨hlt, hfree, hname⟩
    refine ⟨?_, ?_, hdefs ▸ h.labels, hdefs ▸ h.distinct, huses.mpr hname⟩
    · intro p hp
      rcases List.mem_append.mp hp with hp | hp
      · exact h.inside p hp
      · rw [List.mem_singleton.mp hp]; exact hlt
    · rw [hmap, List.nodup_append]
      exact ⟨h.once, by simp, fun a ha b hb => by rw [List.mem_singleton.mp hb]; grind⟩

/-- One more label keeps the rules if its name is allowed and new. -/
theorem sound_label_iff {r : Replay} (h : r.Sound) {name : String} {line : Nat} :
    (r.item (.label name line)).Sound ↔
      Name.LabelAllowed name ∧ r.symbols.isDefined name = false := by
  rw [Symbols.isDefined_eq_false]
  constructor
  · intro hs
    have hd := hs.distinct
    simp only [item, Symbols.definitions_define, List.map_append, List.nodup_append] at hd
    exact ⟨hs.labels ⟨name, .definition, r.cursor, line⟩ (by simp [item]),
      fun hmem => hd.2.2 _ hmem _ (List.mem_singleton_self _) rfl⟩
  · rintro ⟨hname, hnew⟩
    refine ⟨h.inside, h.once, ?_, ?_, by simpa [item] using h.operands⟩
    · intro d hd
      simp only [item, Symbols.definitions_define, List.mem_append, List.mem_singleton] at hd
      rcases hd with hd | rfl
      · exact h.labels d hd
      · exact hname
    · simp only [item, Symbols.definitions_define, List.map_append, List.nodup_append]
      refine ⟨h.distinct, by simp, fun k hk k' hk' heq => hnew ?_⟩
      rw [List.map_singleton, List.mem_singleton] at hk'
      rw [heq, hk'] at hk
      exact hk

/-! ### Replays that go on -/

/-- A replay goes on to another one: bytes and symbols are added at the end. -/
structure Extends (r r' : Replay) : Prop where
  placed : r.placed <+: r'.placed
  entries : r.symbols.entries <+: r'.symbols.entries

theorem Extends.refl (r : Replay) : r.Extends r :=
  ⟨List.prefix_rfl, List.prefix_rfl⟩

theorem Extends.trans {r r' r'' : Replay} (h : r.Extends r') (h' : r'.Extends r'') :
    r.Extends r'' :=
  ⟨h.placed.trans h'.placed, h.entries.trans h'.entries⟩

theorem extends_emit (r : Replay) (e : Emission) : r.Extends (r.emit e) := by
  obtain ⟨value, line⟩ := e
  cases value <;> exact ⟨by simp [emit], by simp [emit]⟩

theorem extends_emitAll : ∀ (es : List Emission) (r : Replay), r.Extends (r.emitAll es)
  | [], r => .refl r
  | e :: es, r => (extends_emit r e).trans (extends_emitAll es (r.emit e))

theorem extends_item (r : Replay) (i : Item) : r.Extends (r.item i) := by
  cases i with
  | comment => exact .refl r
  | newline => exact .refl r
  | label name line => exact ⟨List.prefix_rfl, by simp [item]⟩
  | origin address => exact ⟨List.prefix_rfl, List.prefix_rfl⟩
  | data bytes => exact extends_emitAll bytes r
  | instruction m s opcode operands =>
    exact (extends_emit r opcode).trans (extends_emitAll operands _)

theorem extends_items : ∀ (is : List Item) (r : Replay), r.Extends (r.items is)
  | [], r => .refl r
  | i :: is, r => (extends_item r i).trans (extends_items is (r.item i))

/-- A replay that obeys the rules obeyed them all the way. -/
theorem Sound.of_extends {r r' : Replay} (h : r'.Sound) (hr : r.Extends r') : r.Sound where
  inside p hp := h.inside p (hr.placed.subset hp)
  once := h.once.sublist (hr.placed.sublist.map _)
  labels d hd := h.labels d ((hr.entries.sublist.filter _).subset hd)
  distinct := h.distinct.sublist ((hr.entries.sublist.filter _).map _)
  operands u hu := h.operands u ((hr.entries.sublist.filter _).subset hu)

/-! ### What every replay keeps -/

/-- An address of the image, or the place right behind a byte. -/
def Behind (r : Replay) (a : Nat) : Prop :=
  a < 256 ∨ ∃ p ∈ r.placed, a = p.address + 1

theorem Behind.mono {r r' : Replay} {a : Nat} (h : r.Behind a) (hr : r.Extends r') :
    r'.Behind a :=
  h.imp_right fun ⟨p, hp, ha⟩ => ⟨p, hr.placed.subset hp, ha⟩

/-- What holds all along a replay: references are the placed symbols, and neither the cursor nor a
label stands farther off than right behind a byte. -/
structure Reached (r : Replay) : Prop where
  uses : r.symbols.uses = r.placed.filterMap Placed.reference?
  cursor : r.Behind r.cursor
  definitions : ∀ d ∈ r.symbols.definitions, r.Behind d.address

theorem reached_start : start.Reached :=
  ⟨rfl, .inl (by decide), by simp [start, Symbols.definitions]⟩

theorem Reached.emit {r : Replay} (h : r.Reached) (e : Emission) : (r.emit e).Reached := by
  refine ⟨?_, .inr ⟨⟨e, r.cursor⟩, by simp [Replay.emit], rfl⟩, ?_⟩
  · obtain ⟨value, line⟩ := e
    cases value <;> simp [Replay.emit, h.uses, Placed.reference?]
  · intro d hd
    rw [definitions_emit] at hd
    exact (h.definitions d hd).mono (extends_emit r e)

theorem Reached.emitAll : ∀ {r : Replay} (_ : r.Reached) (es : List Emission),
    (r.emitAll es).Reached
  | _, h, [] => h
  | _, h, e :: es => (h.emit e).emitAll es

theorem Reached.item {r : Replay} (h : r.Reached) (i : Item) : (r.item i).Reached := by
  cases i with
  | comment => exact h
  | newline => exact h
  | label name line =>
    refine ⟨by simpa [Replay.item] using h.uses, h.cursor, ?_⟩
    intro d hd
    simp only [Replay.item, Symbols.definitions_define, List.mem_append, List.mem_singleton] at hd
    rcases hd with hd | rfl
    · exact h.definitions d hd
    · exact h.cursor
  | origin address => exact ⟨h.uses, .inl address.toNat_lt, h.definitions⟩
  | data bytes => exact h.emitAll bytes
  | instruction m s opcode operands => exact (h.emit opcode).emitAll operands

theorem Reached.items : ∀ {r : Replay} (_ : r.Reached) (is : List Item), (r.items is).Reached
  | _, h, [] => h
  | _, h, i :: is => (h.item i).items is

end Replay

end Asm8
