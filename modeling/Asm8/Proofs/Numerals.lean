import Asm8.Proofs.Readings
import Asm8.Proofs.References

/-!
Numbers as operands of jumps.

A symbol must not be a number in upper case, and a label no number at all. Since names are compared in
upper case, a number in lower case would need a label that becomes a number in upper case without being
one. Letters beyond ASCII do not become digits, with one exception: the ligature `U+FB00` becomes `FF`.

    JMP ff          ff       ──▶  FF
    U+FB00: ...     U+FB00   ──▶  FF
-/

namespace Asm8

/-! ### Digits in upper case -/

namespace Text

/-- A hexadecimal digit that is no lower-case letter. -/
def isUpperDigit (c : Char) : Bool :=
  ('0' ≤ c && c ≤ '9') || ('A' ≤ c && c ≤ 'F')

/-- The only letter beyond ASCII whose upper-case form is made of digits. -/
def ligature : Char := '\uFB00'

theorem toNat_of_isUpperDigit {c : Char} (h : isUpperDigit c) : 0x30 ≤ c.toNat ∧ c.toNat ≤ 0x46 := by
  simp only [isUpperDigit, Bool.or_eq_true, Bool.and_eq_true, decide_eq_true_eq, Char.le_def,
    UInt32.le_iff_toNat_le] at h
  change ((0x30 ≤ c.toNat ∧ c.toNat ≤ 0x39) ∨ (0x41 ≤ c.toNat ∧ c.toNat ≤ 0x46)) at h
  omega

theorem toNat_of_isUpperDigit_ofNat {n : Nat} (h : isUpperDigit (Char.ofNat n)) : n ≤ 0x46 := by
  have hb := toNat_of_isUpperDigit h
  by_cases hv : n.isValidChar
  · rw [Char.ofNat, dif_pos hv] at hb
    exact hb.2
  · rw [Char.ofNat, dif_neg hv] at hb
    exact absurd hb.1 (by decide)

theorem toNat_of_isHexDigit {c : Char} (h : isHexDigit c) : c.toNat < 0x80 := by
  have hle : c ≤ 'f' := by
    unfold isHexDigit hexDigit? at h
    split at h
    · next hc => exact Char.le_trans hc.2 (by decide)
    split at h
    · next hc => exact Char.le_trans hc.2 (by decide)
    split at h
    · next hc => exact hc.2
    · cases h
  have hle : c.toNat ≤ 0x66 := by
    rw [Char.le_def, UInt32.le_iff_toNat_le] at hle
    exact hle
  omega

/-- What holds of all ASCII characters can be checked one by one. -/
theorem of_ascii {p : Char → Bool} (h : ∀ n < 0x80, p (Char.ofNat n)) {c : Char}
    (hc : c.toNat < 0x80) : p c := by
  simpa using h c.toNat hc

theorem isUpperDigit_toUpper {c : Char} (hc : c.toNat < 0x80) :
    isUpperDigit c.toUpper = isHexDigit c := by
  have h := of_ascii (p := fun c => isUpperDigit c.toUpper == isHexDigit c) (by decide +kernel) hc
  simpa using h

theorem upperChar_of_isHexDigit {c : Char} (h : isHexDigit c) : upperChar c = [c.toUpper] :=
  if_pos (toNat_of_isHexDigit h)

theorem flatMap_upperChar : ∀ {cs : List Char}, (∀ c ∈ cs, isHexDigit c) →
    cs.flatMap upperChar = cs.map Char.toUpper
  | [], _ => rfl
  | c :: cs, h => by
    rw [List.flatMap_cons, upperChar_of_isHexDigit (h c (by simp)),
      flatMap_upperChar fun d hd => h d (by simp [hd])]
    rfl

theorem upperChar_ne_nil (c : Char) : upperChar c ≠ [] := by
  unfold upperChar
  split
  · simp
  · split <;> simp [CaseRun.apply]

/-- Along every run but one the upper-case forms begin or go on with something else than a digit. -/
theorem caseRuns_digits : ∀ r ∈ caseRuns, 0x46 < r.image ∨
    (∃ n ∈ r.further, isUpperDigit (Char.ofNat n) = false) ∨
    (r.first = ligature.toNat ∧ r.last = ligature.toNat) := by
  decide +kernel

/-- A letter whose upper-case form is made of digits is a digit, or the ligature. -/
theorem isHexDigit_of_upperChar {c : Char} (h : ∀ d ∈ upperChar c, isUpperDigit d) :
    isHexDigit c ∨ c = ligature := by
  unfold upperChar at h
  split at h
  · next hc => exact .inl (isUpperDigit_toUpper hc ▸ h _ (by simp))
  · next hc =>
    right
    split at h
    · have hb := toNat_of_isUpperDigit (h c (by simp))
      omega
    · next r hr =>
      have hcovers : r.covers c.toNat := by simpa using List.find?_some hr
      rcases caseRuns_digits r (List.mem_of_find?_eq_some hr) with himage | ⟨n, hn, hdigit⟩ | hends
      · have hle := toNat_of_isUpperDigit_ofNat (h _ (by rw [CaseRun.apply]; exact List.mem_cons_self))
        omega
      · have hmem : Char.ofNat n ∈ r.apply c.toNat :=
          List.mem_cons_of_mem _ (List.mem_map_of_mem hn)
        rw [h _ hmem] at hdigit
        cases hdigit
      · simp only [CaseRun.covers, Bool.and_eq_true, decide_eq_true_eq] at hcovers
        have heq : c.toNat = ligature.toNat := by omega
        rw [← Char.ofNat_toNat c, heq, Char.ofNat_toNat]

/-- Only digits and ligatures have digits in upper case. -/
theorem isHexDigit_of_flatMap {cs : List Char} (h : ∀ d ∈ cs.flatMap upperChar, isUpperDigit d) :
    ∀ c ∈ cs, isHexDigit c ∨ c = ligature := by
  intro c hc
  apply isHexDigit_of_upperChar
  intro d hd
  exact h d (List.mem_flatMap.mpr ⟨c, hc, hd⟩)

theorem eq_nil_of_flatMap_upperChar {cs : List Char} (h : cs.flatMap upperChar = []) : cs = [] := by
  rw [List.flatMap_eq_nil_iff] at h
  exact List.eq_nil_iff_forall_not_mem.mpr fun c hc => upperChar_ne_nil c (h c hc)

theorem upperChar_ligature : upperChar ligature = ['F', 'F'] := by decide +kernel

/-- Nothing stands beside a ligature in a text of at most two characters in upper case. -/
theorem eq_ligature_of_mem {cs : List Char} (h : ligature ∈ cs)
    (hlen : (cs.flatMap upperChar).length ≤ 2) : cs = [ligature] := by
  obtain ⟨xs, ys, rfl⟩ := List.append_of_mem h
  rw [List.flatMap_append, List.flatMap_cons, upperChar_ligature] at hlen
  simp only [List.length_append, List.length_cons, List.length_nil] at hlen
  have hxs : xs.flatMap upperChar = [] := List.length_eq_zero_iff.mp (by omega)
  have hys : ys.flatMap upperChar = [] := List.length_eq_zero_iff.mp (by omega)
  rw [eq_nil_of_flatMap_upperChar hxs, eq_nil_of_flatMap_upperChar hys]
  rfl

theorem isHexByte_iff {s : String} : isHexByte s ↔
    (s.toList.length = 1 ∨ s.toList.length = 2) ∧ ∀ c ∈ s.toList, isHexDigit c := by
  simp [isHexByte, ← String.length_toList]

/-- A text whose upper-case form is that of one or two digits is one or two digits itself, or it is the
ligature. -/
theorem eq_ligature_of_upper_eq {number label : String} (hn : isHexByte number)
    (hl : isHexByte label = false) (h : upper label = upper number) :
    label.toList = [ligature] ∧ number.toList.map Char.toUpper = ['F', 'F'] := by
  obtain ⟨hlen, hdigits⟩ := isHexByte_iff.mp hn
  have hmap : label.toList.flatMap upperChar = number.toList.map Char.toUpper := by
    rw [← flatMap_upperChar hdigits]
    exact String.ofList_injective h
  have hcount := congrArg List.length hmap
  rw [List.length_map] at hcount
  by_cases hlig : ligature ∈ label.toList
  · have heq : label.toList = [ligature] := eq_ligature_of_mem hlig (by omega)
    refine ⟨heq, ?_⟩
    rw [← hmap, heq]
    exact upperChar_ligature
  · -- without the ligature the label is a number as well
    have hupper : ∀ d ∈ label.toList.flatMap upperChar, isUpperDigit d := by
      intro d hd
      rw [hmap] at hd
      obtain ⟨c, hc, rfl⟩ := List.mem_map.mp hd
      rw [isUpperDigit_toUpper (toNat_of_isHexDigit (hdigits c hc))]
      exact hdigits c hc
    have hall : ∀ c ∈ label.toList, isHexDigit c := fun c hc =>
      (isHexDigit_of_flatMap hupper c hc).resolve_right fun heq => hlig (heq ▸ hc)
    rw [flatMap_upperChar hall, List.length_map] at hcount
    rw [isHexByte_iff.mpr ⟨by omega, hall⟩] at hl
    cases hl

end Text

/-! ### Numbers among the references -/

/-- How a number may be taken for a label: it is written as two letters F, not both in upper case, and
the label is the ligature. -/
structure Symbols.Ligated (ss : Symbols) (name : String) : Prop where
  spelled : name = "ff" ∨ name = "fF" ∨ name = "Ff"
  label : ∃ d, ss.definition? name = some d ∧ d.name = "\uFB00"

theorem Text.eq_of_toUpper_eq {c : Char} (hc : isHexDigit c) (h : c.toUpper = 'F') :
    c = 'f' ∨ c = 'F' := by
  have hall := of_ascii (p := fun c => c.toUpper != 'F' || c == 'f' || c == 'F')
    (by decide +kernel) (toNat_of_isHexDigit hc)
  simpa [h] using hall

/-- The number that is written with two letters F is refused as a symbol if both are in upper case. -/
theorem Name.SymbolAllowed.spelled {name : String} (h : SymbolAllowed name)
    (hn : Text.isHexByte name) (hff : name.toList.map Char.toUpper = ['F', 'F']) :
    name = "ff" ∨ name = "fF" ∨ name = "Ff" := by
  obtain ⟨-, hdigits⟩ := Text.isHexByte_iff.mp hn
  obtain ⟨x, y, hname⟩ : ∃ x y, name.toList = [x, y] := by
    have hlen : name.toList.length = 2 := by simpa using congrArg List.length hff
    exact List.length_eq_two.mp hlen
  have heq : name = String.ofList [x, y] := by rw [← hname, String.ofList_toList]
  rw [hname] at hdigits hff
  simp only [List.map_cons, List.map_nil, List.cons.injEq, and_true] at hff
  have hx := Text.eq_of_toUpper_eq (hdigits x (by simp)) hff.1
  have hy := Text.eq_of_toUpper_eq (hdigits y (by simp)) hff.2
  rcases hx with rfl | rfl <;> rcases hy with rfl | rfl
  · exact .inl heq
  · exact .inr (.inl heq)
  · exact .inr (.inr heq)
  · rw [heq] at h
    exact absurd h.1 (by decide)

/-- A placed symbol that is a number stands for the ligature. -/
theorem Replay.Shows.ligated {r : Replay} {a : Assembly} (h : r.Shows a) (hr : r.Sound)
    (hre : r.Reached) {p : Placed} (hp : p ∈ r.placed) {name : String} {mode : Mode}
    (hv : p.value = .symbol name mode) (hn : Text.isHexByte name) : a.symbols.Ligated name := by
  have huse : (⟨name, .reference mode, p.address, p.line⟩ : Symbol) ∈ r.symbols.uses := by
    rw [hre.uses, List.mem_filterMap]
    exact ⟨p, hp, by rw [Placed.reference?, hv]⟩
  obtain ⟨d, hd⟩ : ∃ d, r.symbols.definition? name = some d := by
    obtain ⟨b, hb, -⟩ := h.written p hp
    rw [hv] at hb
    cases hd : r.symbols.definition? name with
    | some d => exact ⟨d, rfl⟩
    | none => cases mode <;> simp [Value.byte?, Symbols.address?, hd] at hb
  have hmem : d ∈ r.symbols.definitions := List.mem_of_find?_eq_some hd
  have hkey : d.key = Text.upper name := by simpa using List.find?_some hd
  obtain ⟨hlabel, hff⟩ := Text.eq_ligature_of_upper_eq hn (hr.labels d hmem).1 hkey
  exact ⟨(hr.operands _ huse).spelled hn hff, d, h.symbols ▸ hd, String.toList_inj.mp hlabel⟩

/-- The operand of a jump is one symbol. -/
theorem Item.Spells.exists_symbol {t : Table} {m : String} {s : Shape} {opcode : Emission}
    {operands : List Emission} {xs : List Token}
    (h : (Item.instruction m s opcode operands).Spells t xs)
    (hjump : t.group? m = some .offset ∨ t.group? m = some .absolute) :
    ∃ name mode line, operands = [⟨.symbol name mode, line⟩] := by
  cases h with
  | @instruction w _ g _ b toks hw hm hg hs ho hc =>
    rw [hg, Option.some.injEq, Option.some.injEq] at hjump
    rcases hjump with rfl | rfl
    · cases List.mem_singleton.mp hs
      cases hc with
      | cons _ hc => cases hc; exact ⟨_, _, _, rfl⟩
    · cases List.mem_singleton.mp hs
      cases hc with
      | cons _ hc => cases hc; exact ⟨_, _, _, rfl⟩

/-- No reference of an assembled text is a number, and no operand of a jump in it, but for the letters
F of the ligature. -/
theorem assemble_number_is_ligature {t : Table} {source : String} {a : Assembly}
    (h : assemble t source = .ok a) :
    (∀ u ∈ a.symbols.entries, ∀ mode, u.role = .reference mode → Text.isHexByte u.name →
      a.symbols.Ligated u.name) ∧
    ∀ is last, Reading t (tokenize source) is last →
      ∀ m s opcode operands, .instruction m s opcode operands ∈ is →
        t.group? m = some .offset ∨ t.group? m = some .absolute →
        ∃ name mode line, operands = [⟨.symbol name mode, line⟩] ∧
          (Text.isHexByte name → a.symbols.Ligated name) := by
  obtain ⟨is, last, hread, hsound, -, hshows⟩ := assembleTokens_shows h
  have hreached := Replay.reached_program t is last.line
  constructor
  · intro u hu mode hrole hn
    rw [hshows.symbols] at hu
    obtain ⟨p, hp, hv, -⟩ := hreached.exists_placed hu hrole
    exact hshows.ligated hsound hreached hp hv hn
  · intro is' last' hread' m s opcode operands hmem hjump
    obtain ⟨rfl, rfl⟩ := hread'.unique hread
    obtain ⟨xs, rest, -, hsp⟩ := hread.tokens
    obtain ⟨ys, hys⟩ := hsp.exists_spells _ hmem
    obtain ⟨name, mode, line, rfl⟩ := hys.exists_symbol hjump
    refine ⟨name, mode, line, rfl, fun hn => ?_⟩
    obtain ⟨js, ks, rfl⟩ := List.append_of_mem hmem
    have hp : (⟨⟨.symbol name mode, line⟩, (Replay.start.items js).cursor + 1⟩ : Placed) ∈
        Replay.placeFrom (Replay.start.items js).cursor
          [opcode, ⟨.symbol name mode, line⟩] := List.mem_cons_of_mem _ List.mem_cons_self
    exact hshows.ligated hsound hreached (Replay.mem_placed_program hp) rfl hn

theorem assemble_number_is_ligature_jumps :
    ∃ a, assemble .jumps "JMP fg\rFG: END\r" = .ok a ∧
      ⟨"fg", .reference .relative, 1, 1⟩ ∈ a.symbols.entries ∧
      ∀ u ∈ a.symbols.entries, ∀ mode, u.role = .reference mode → Text.isHexByte u.name = false := by
  obtain ⟨a, ha, hsymbols⟩ := exists_ok_of_map_toOption
    (x := assemble .jumps "JMP fg\rFG: END\r") (f := fun a => a.symbols)
    (b := ⟨[⟨"fg", .reference .relative, 1, 1⟩, ⟨"FG", .definition, 2, 2⟩]⟩) (by decide +kernel)
  refine ⟨a, ha, by rw [hsymbols]; decide, ?_⟩
  intro u hu mode hrole
  by_contra hn
  obtain ⟨d, hd, hname⟩ :=
    ((assemble_number_is_ligature ha).1 u hu mode hrole (by simpa using hn)).label
  have hmem := List.mem_of_find?_eq_some hd
  rw [hsymbols, show Symbols.definitions _ = [⟨"FG", .definition, 2, 2⟩] from rfl,
    List.mem_singleton] at hmem
  rw [hmem] at hname
  exact absurd hname (by decide)

/-- A jump to a number in lower case leads to the ligature. -/
theorem number_taken_for_label :
    Text.isHexByte "ff" ∧ Table.read "000;C0;JMP OFFSET\n001;C7;JPA ABSOLUTE" = .ok .jumps ∧
    ∃ a, assemble .jumps "JMP ff\r\uFB00: END\r" = .ok a ∧
      ⟨"ff", .reference .relative, 1, 1⟩ ∈ a.symbols.entries ∧ a.symbols.address? "ff" = some 2 ∧
      a.image.ram.take 3 = [0xC0, 0x02, 0x00] := by
  obtain ⟨a, ha, hfacts⟩ := exists_ok_of_map_toOption
    (x := assemble .jumps "JMP ff\r\uFB00: END\r") (f := fun a => (a.symbols, a.image.ram.take 3))
    (b := (⟨[⟨"ff", .reference .relative, 1, 1⟩, ⟨"\uFB00", .definition, 2, 2⟩]⟩,
      [0xC0, 0x02, 0x00])) (by decide +kernel)
  obtain ⟨hsymbols, hram⟩ := Prod.mk.inj hfacts
  refine ⟨by decide, Table.read_jumps, a, ha, ?_, ?_, hram⟩
  · rw [hsymbols]; decide
  · rw [hsymbols]; decide +kernel

end Asm8
