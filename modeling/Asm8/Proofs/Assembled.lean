import Asm8.Proofs.Language
import Asm8.Proofs.Linking

/-!
An assembled source text is the replay of its lines.

The lines up to `END` say items, in one way only, and the replay of the items places bytes. Each byte
stands in the memory at its place, marked as used and with the line that asked for it, and nothing
else is there:

    lines ──▶ items ──▶ replay     placed     (address, value, line), ...
                                     │
    assembly                         ▼
      ram     0  0  b₁ b₂ 0  ...     value, a symbol as the address or the distance of its label
      used    -  -  +  +  -  ...
      lines   -  -  n₁ n₂ -  ...
-/

namespace Asm8

/-! ### Views of an image -/

theorem Image.getElem?_ram (m : Image) {a : Nat} (h : a < 256) :
    m.ram[a]? = some ((m.get? a).getD 0) := by
  rw [get?_of_lt h]
  simp [ram, h]

theorem Image.getElem?_used (m : Image) {a : Nat} (h : a < 256) :
    m.used[a]? = some (m.get? a).isSome := by
  rw [get?_of_lt h]
  simp [used, h]

theorem Image.lt_of_used {m : Image} {x : Nat} (h : m.used[x]? = some true) : x < 256 := by
  obtain ⟨hx, -⟩ := List.getElem?_eq_some_iff.mp h
  simpa [used] using hx

/-! ### Assemblies of replays -/

/-- The assembly shows what was replayed and nothing else. -/
structure Replay.Shows (r : Replay) (a : Assembly) : Prop where
  symbols : a.symbols = r.symbols
  cursor : a.image.cursor = r.cursor
  /-- every byte that was placed stands at its address with its line -/
  written : ∀ p ∈ r.placed, ∃ b, p.value.byte? r.symbols p.address = some b ∧
    a.image.ram[p.address]? = some b ∧ a.image.used[p.address]? = some true ∧
    a.lines[p.address]? = some (some p.line)
  /-- every other address is unused -/
  unused : ∀ x < 256, (∀ p ∈ r.placed, p.address ≠ x) →
    a.image.ram[x]? = some 0 ∧ a.image.used[x]? = some false ∧ a.lines[x]? = some none

theorem lines_getElem? {lines : Vector (Option Nat) 256} {x : Nat} {o : Option Nat} (hx : x < 256)
    (h : lines[x]?.join = o) : lines[x]? = some o := by
  rw [Vector.getElem?_eq_getElem hx] at h ⊢
  rw [← h]
  rfl

/-- The finished image of a replay that obeys the rules, with the lines of the replay, shows it. -/
theorem Replay.Links.shows {r : Replay} {a : Assembly} (h : r.Links a.image) (hr : r.Sound)
    (hs : a.symbols = r.symbols) (hl : ∀ x, a.lines[x]?.join = (r.at? x).map fun p => p.line) :
    r.Shows a := by
  refine ⟨hs, h.cursor, ?_, ?_⟩
  · intro p hp
    have hlt := hr.inside p hp
    obtain ⟨b, hb, hget⟩ := h.bytes p hp
    refine ⟨b, hb, ?_, ?_, lines_getElem? hlt ?_⟩
    · rw [Image.getElem?_ram _ hlt, hget]; rfl
    · rw [Image.getElem?_used _ hlt, hget]; rfl
    · rw [hl, hr.at?_address hp]; rfl
  · intro x hx hfree
    have hat : r.at? x = none := by
      rw [at?_eq_none_iff, List.mem_map]
      rintro ⟨p, hp, rfl⟩
      exact hfree p hp rfl
    refine ⟨?_, ?_, lines_getElem? hx ?_⟩
    · rw [Image.getElem?_ram _ hx, h.free x hat]; rfl
    · rw [Image.getElem?_used _ hx, h.free x hat]; rfl
    · rw [hl, hat]; rfl

/-- An assembly shows the replay of the items that its tokens read as. -/
theorem assembleTokens_shows {t : Table} {toks : List Token} {a : Assembly}
    (h : assembleTokens t toks = .ok a) :
    ∃ is last, Reading t toks is last ∧ (Replay.program t is last.line).Sound ∧
      (Replay.program t is last.line).Links a.image ∧
      (Replay.program t is last.line).Shows a := by
  obtain ⟨is, last, hread, hsound, hlinks, hsymbols, hlines⟩ := assembleTokens_reading h
  exact ⟨is, last, hread, hsound, hlinks, hlinks.shows hsound hsymbols hlines⟩

/-- A table that was read has an opcode for `END`. -/
theorem Table.exists_placeholder_end {text : String} {t : Table} (h : Table.read text = .ok t) :
    ∃ b, t.placeholder? endMnemonic = some b := by
  obtain ⟨rows, -, h⟩ := bind_ok_iff.mp h
  dsimp only at h
  split at h
  · simp at h
  · simp only [Except.ok.injEq] at h
    subst h
    have hrow : ((Table.withEnd ⟨rows⟩).rows.find? (·.mnemonic = endMnemonic)).isSome := by
      rw [List.find?_isSome]
      unfold withEnd
      split
      · next hany => simpa using hany
      · exact ⟨Row.ofEnd, by simp, by simp [Row.ofEnd]⟩
    obtain ⟨row, hrow⟩ := Option.isSome_iff_exists.mp hrow
    exact ⟨row.opcode, by rw [placeholder?, hrow]; rfl⟩

/-! ### A table of jumps -/

/-- What a computation gives, if what is asked of its result is known. -/
theorem exists_ok_of_map_toOption {ε α β : Type} {x : Except ε α} {f : α → β} {b : β}
    (h : x.toOption.map f = some b) : ∃ a, x = .ok a ∧ f a = b := by
  cases x with
  | error e => simp [Except.toOption] at h
  | ok a => exact ⟨a, rfl, by simpa [Except.toOption] using h⟩

/-- A table with a relative and an absolute jump. -/
def Table.jumps : Table :=
  ⟨[⟨"000", "JMP", 0xC0, .offset⟩, ⟨"001", "JPA", 0xC7, .absolute⟩, Row.ofEnd]⟩

theorem Table.read_jumps : Table.read "000;C0;JMP OFFSET\n001;C7;JPA ABSOLUTE" = .ok jumps := rfl

/-! ### Source texts -/

/-- An assembled source text reads as a program in one way, and the assembly shows the replay of its
items, line by line, and of `END` with the opcode that the table has for it. -/
theorem assemble_shows_replay {text source : String} {t : Table} {a : Assembly}
    (ht : Table.read text = .ok t) (h : assemble t source = .ok a) :
    ∃ body label last ending,
      Program t (Lexer.sourceTokens source) body label last ∧
      (∀ body' label' last', Program t (Lexer.sourceTokens source) body' label' last' →
        body' = body ∧ label' = label ∧ last' = last) ∧
      (∀ (k : Nat) (is : List Item), body[k]? = some is → ∀ i ∈ is, i.OnLine (1 + k)) ∧
      (∀ i ∈ label, i.OnLine (1 + body.length)) ∧
      t.placeholder? endMnemonic = some ending ∧
      ((Replay.start.items (body.flatten ++ label)).emit
        ⟨.byte ending, 1 + body.length⟩).Shows a := by
  obtain ⟨is, last, hread, -, -, hshows⟩ := assembleTokens_shows h
  obtain ⟨body, label, hprogram, hitems⟩ := hread.exists_program
  obtain ⟨ending, hending⟩ := Table.exists_placeholder_end ht
  obtain ⟨hbody, hlabel, hlast⟩ := hprogram.onLine
  refine ⟨body, label, last, ending, hprogram, ?_, hbody, hlabel, hending, ?_⟩
  · intro body' label' last' hprogram'
    exact hprogram'.unique hprogram
  · rw [Replay.program_congr hitems, Replay.program, Table.ending, hending, hlast] at hshows
    exact hshows

theorem assemble_shows_replay_jumps :
    Table.read "000;C0;JMP OFFSET\n001;C7;JPA ABSOLUTE" = .ok .jumps ∧
    ∃ a, assemble .jumps "ORG 10\rL: DB \"AB\"\rJMP L ; back\rJPA L\rEND\r" = .ok a ∧
      (a.image.ram.drop 0x10).take 7 = [0x41, 0x42, 0xC0, 0xFE, 0xC7, 0x10, 0x00] ∧
      ∃ body label last ending,
        Program .jumps
          (Lexer.sourceTokens "ORG 10\rL: DB \"AB\"\rJMP L ; back\rJPA L\rEND\r") body label last ∧
        Table.jumps.placeholder? endMnemonic = some ending ∧
        ((Replay.start.items (body.flatten ++ label)).emit
          ⟨.byte ending, 1 + body.length⟩).Shows a := by
  obtain ⟨a, ha, hram⟩ := exists_ok_of_map_toOption
    (x := assemble .jumps "ORG 10\rL: DB \"AB\"\rJMP L ; back\rJPA L\rEND\r")
    (f := fun a => (a.image.ram.drop 0x10).take 7)
    (b := [0x41, 0x42, 0xC0, 0xFE, 0xC7, 0x10, 0x00]) (by decide +kernel)
  obtain ⟨body, label, last, ending, hprogram, -, -, -, hending, hshows⟩ :=
    assemble_shows_replay Table.read_jumps ha
  exact ⟨Table.read_jumps, a, ha, hram, body, label, last, ending, hprogram, hending, hshows⟩

end Asm8
