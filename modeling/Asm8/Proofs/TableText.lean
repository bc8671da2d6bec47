import Asm8.Isa.Builtin
import Asm8.Proofs.Numerals
import Asm8.Proofs.Printing
import Asm8.Proofs.Segments
import Asm8.Proofs.Tables
import Asm8.Proofs.UpperCase
import Mathlib.Data.List.DropRight

/-!
Tables written back.

Reading a table drops comments, blank lines and blanks, turns everything into upper case and adds a row
for `END` where there is none. What is left is in a normal form: the rows, each on a line of its own,
are read as the same rows again.

    // header
      straße ;+d0; mov reg ,const     ──▶   STRASSE;D0;MOV REG,CONST
    ;0D5;mov reg,reg ; more                 ;D5;MOV REG,REG
                                            ;00;END

Entries and mnemonics are taken from lines in upper case. They hold no semicolon and no line end, an
entry has no blank at its ends and a mnemonic none at all, and no line starts with two slashes, since
neither upper case nor the cut at semicolons brings a slash to the front.

The rows of the built-in table are in this form too, so that its text is read line by line, without
running the whole reader on it.
-/

namespace Asm8

/-! ### Blanks at the ends -/

namespace Text

variable {cs xs ys : List Char} {c d : Char}

/-- Neither end is blank. -/
structure Trimmed (cs : List Char) : Prop where
  head : ∀ c ∈ cs.head?, isBlank c = false
  last : ∀ c ∈ cs.getLast?, isBlank c = false

theorem trimChars_eq (cs : List Char) :
    trimChars cs = (cs.dropWhile isBlank).rdropWhile isBlank := rfl

theorem mem_of_mem_trimChars (h : c ∈ trimChars cs) : c ∈ cs := by
  have hmem := (List.rdropWhile_prefix isBlank (l := cs.dropWhile isBlank)).subset h
  exact (List.dropWhile_suffix isBlank).subset hmem

theorem trimmed_trimChars (cs : List Char) : Trimmed (trimChars cs) := by
  rw [trimChars_eq]
  constructor
  · intro c hc
    obtain ⟨rest, hrest⟩ := List.rdropWhile_prefix isBlank (l := cs.dropWhile isBlank)
    have hhead : (cs.dropWhile isBlank).head? = some c := by
      rw [← hrest, List.head?_append, hc]
      rfl
    have hnot := List.head?_dropWhile_not isBlank cs
    rwa [hhead] at hnot
  · intro c hc
    by_cases hnil : (cs.dropWhile isBlank).rdropWhile isBlank = []
    · simp [hnil] at hc
    · rw [List.getLast?_eq_some_getLast hnil] at hc
      cases hc
      simpa using List.rdropWhile_last_not isBlank _ hnil

theorem Trimmed.dropWhile_append (h : Trimmed xs) (hne : xs ≠ []) (ys : List Char) :
    (xs ++ ys).dropWhile isBlank = xs ++ ys := by
  cases xs with
  | nil => exact absurd rfl hne
  | cons c xs => rw [List.cons_append, List.dropWhile_cons, h.head c rfl, if_neg (by simp)]

/-- Blanks behind the last character are dropped. -/
theorem Trimmed.trimChars_append (h : Trimmed xs) (hne : xs ≠ []) (hys : ∀ c ∈ ys, isBlank c) :
    trimChars (xs ++ ys) = xs := by
  have hlast : xs.rdropWhile isBlank = xs := by
    rw [List.rdropWhile_eq_self_iff]
    intro hxs
    simp [h.last _ (List.getLast?_eq_some_getLast hxs)]
  rw [trimChars_eq, h.dropWhile_append hne, List.rdropWhile, List.reverse_append,
    List.dropWhile_append_of_pos (by simpa using hys)]
  exact hlast

theorem Trimmed.trimChars_eq_self (h : Trimmed cs) : trimChars cs = cs := by
  by_cases hnil : cs = []
  · rw [hnil]
    rfl
  · have hself := h.trimChars_append hnil (List.forall_mem_nil _)
    rwa [List.append_nil] at hself

/-! ### Lines and fields -/

/-- The first piece stands in front. -/
theorem prefix_of_splitAt {sep : Char} {piece : List Char} {rest : List (List Char)}
    (h : splitAt sep cs = piece :: rest) : piece <+: cs := by
  induction cs generalizing piece rest with
  | nil =>
    cases h
    exact List.prefix_rfl
  | cons c cs ih =>
    rw [splitAt] at h
    split at h
    · cases h
      exact List.nil_prefix
    · cases hcs : splitAt sep cs with
      | nil => exact absurd hcs (splitAt_ne_nil sep cs)
      | cons first later =>
        rw [hcs] at h
        cases h
        exact (List.prefix_cons_inj c).mpr (ih hcs)

theorem mem_of_mem_splitAt {sep : Char} {piece : List Char} (hp : piece ∈ splitAt sep cs)
    (hc : c ∈ piece) : c ∈ cs := by
  induction cs generalizing piece with
  | nil =>
    rw [splitAt, List.mem_singleton] at hp
    exact hp ▸ hc
  | cons b cs ih =>
    rw [splitAt] at hp
    split at hp
    · rcases List.mem_cons.mp hp with rfl | hp
      · cases hc
      · exact List.mem_cons_of_mem _ (ih hp hc)
    · cases hcs : splitAt sep cs with
      | nil => exact absurd hcs (splitAt_ne_nil sep cs)
      | cons first later =>
        rw [hcs, List.mem_cons] at hp
        rw [hcs] at ih
        rcases hp with rfl | hp
        · rcases List.mem_cons.mp hc with rfl | hc
          · exact List.mem_cons_self
          · exact List.mem_cons_of_mem _ (ih List.mem_cons_self hc)
        · exact List.mem_cons_of_mem _ (ih (List.mem_cons_of_mem _ hp) hc)

theorem notMem_of_mem_lines {text line : String} (h : line ∈ lines text) : '\n' ∉ line.toList := by
  obtain ⟨cs, hcs, rfl⟩ := List.mem_map.mp h
  rw [String.toList_ofList]
  rcases List.mem_append.mp hcs with hcs | hcs
  · obtain ⟨piece, hpiece, rfl⟩ := List.mem_map.mp hcs
    have hnot := notMem_of_mem_splitAt piece (List.mem_of_mem_dropLast hpiece)
    unfold dropReturn
    split
    · exact fun hmem => hnot (List.mem_of_mem_dropLast hmem)
    · exact hnot
  · have hlast := (List.mem_filter.mp hcs).1
    rw [Option.mem_toList] at hlast
    exact notMem_of_mem_splitAt cs (List.mem_of_getLast? hlast)

/-- Lines with an LF behind each of them are found again, if none ends in CR. -/
theorem lines_join {ls : List String} (hlf : ∀ l ∈ ls, '\n' ∉ l.toList)
    (hcr : ∀ l ∈ ls, l.toList.getLast? ≠ some '\r') :
    lines (String.join (ls.map (· ++ "\n"))) = ls := by
  have hpieces : splitAt '\n' (String.join (ls.map (· ++ "\n"))).toList =
      ls.map String.toList ++ [[]] := by
    have htext : (String.join (ls.map (· ++ "\n"))).toList =
        (ls.map String.toList).flatMap (· ++ ['\n']) ++ [] := by
      rw [String.toList_join, List.flatMap_map, List.flatMap_map, List.append_nil]
      exact List.flatMap_congr fun l _ => String.toList_append
    rw [htext]
    exact splitAt_flatMap (by simpa using hlf) (by simp)
  have hsame : ∀ l ∈ ls, String.ofList (dropReturn l.toList) = l := by
    intro l hl
    rw [dropReturn, if_neg (hcr l hl), String.ofList_toList]
  have hlines : lineChars (String.join (ls.map (· ++ "\n"))).toList =
      (ls.map String.toList).map dropReturn := by
    rw [lineChars, hpieces]
    simp
  rw [lines, hlines, List.map_map, List.map_map]
  exact (List.map_congr_left hsame).trans (List.map_id ls)

/-- A mark in front of the upper-case form of a text stands in front of the text. -/
theorem eq_cons_of_flatMap_upperChar {ds : List Char} (hd : d.toNat ∈ marks)
    (h : cs.flatMap upperChar = d :: ds) :
    ∃ rest, cs = d :: rest ∧ rest.flatMap upperChar = ds := by
  cases cs with
  | nil => cases h
  | cons c cs =>
    rw [List.flatMap_cons] at h
    obtain ⟨e, es, hc⟩ := List.exists_cons_of_ne_nil (upperChar_ne_nil c)
    rw [hc, List.cons_append] at h
    obtain ⟨rfl, hrest⟩ := List.cons.inj h
    obtain ⟨rfl, hself⟩ := upperChar_of_mem_marks (c := c) (by simp [hc]) hd
    obtain ⟨-, rfl⟩ := List.cons.inj (hc.symm.trans hself)
    exact ⟨cs, rfl, hrest⟩

end Text

/-! ### Opcodes -/

namespace Text

theorem hexChar_plain : ∀ n < 16, upperChar (hexChar n) = [hexChar n] ∧
    isBlank (hexChar n) = false ∧ hexChar n ∉ [';', '\n', '+'] := by
  decide

theorem hexByte_plain {b : UInt8} {c : Char} (h : c ∈ (hexByte b).toList) :
    upperChar c = [c] ∧ isBlank c = false ∧ c ∉ [';', '\n', '+'] := by
  have hlt := b.toNat_lt
  rw [toList_hexByte, List.mem_pair] at h
  rcases h with rfl | rfl
  · exact hexChar_plain _ (by omega)
  · exact hexChar_plain _ (by omega)

theorem trimmed_hexByte (b : UInt8) : Trimmed (hexByte b).toList :=
  ⟨fun _ hc => (hexByte_plain (List.mem_of_head? hc)).2.1,
    fun _ hc => (hexByte_plain (List.mem_of_getLast? hc)).2.1⟩

/-- The two digits of a byte are read as this byte. -/
theorem hexNumber?_hexByte (b : UInt8) : hexNumber? (hexByte b) = some b := by
  have hlt := b.toNat_lt
  have hhigh := hexDigit?_hexChar (b.toNat / 16) (by omega)
  have hlow := hexDigit?_hexChar (b.toNat % 16) (by omega)
  have hdigits := toList_hexByte b
  have hplus : dropPlus (hexByte b).toList = (hexByte b).toList := by
    have hne := (hexByte_plain (b := b) (by rw [hdigits]; exact List.mem_cons_self)).2.2
    rw [hdigits]
    unfold dropPlus
    split
    · next heq =>
      rw [(List.cons.inj heq).1] at hne
      simp at hne
    · rfl
  have hvalue : hexValue (hexByte b).toList = b.toNat := by
    rw [hdigits]
    simp only [hexValue, List.foldl_cons, List.foldl_nil, hhigh, hlow, Option.getD_some]
    omega
  have hall : (hexByte b).toList.all isHexDigit := by
    simp [hdigits, isHexDigit, hhigh, hlow]
  have hnonempty : (hexByte b).toList ≠ [] := by simp [hdigits]
  simp only [hexNumber?, hplus, hvalue]
  rw [if_pos ⟨hnonempty, hall, hlt⟩, UInt8.ofNat_toNat]

end Text

/-! ### Rows in normal form -/

/-- What stands behind the mnemonic in a row, without a blank at its end. -/
def Shape.operands (s : Shape) : List Char :=
  if s = .implied then [] else ' ' :: s.pattern.toList

/-- Whether a trimmed line holds a row: it is neither empty nor a comment. -/
def Table.holdsRow (cs : List Char) : Bool :=
  cs ≠ [] ∧ cs.take 2 ≠ ['/', '/']

namespace Row

open Text

/-- The row can be read back from its line. -/
structure Legible (r : Row) : Prop where
  trimmed : Trimmed r.entry.toList
  entry : ∀ c ∈ r.entry.toList, upperChar c = [c] ∧ c ≠ ';' ∧ c ≠ '\n'
  /-- the line is no comment -/
  first : r.entry.toList.take 2 ≠ ['/', '/']
  mnemonic_ne : r.mnemonic.toList ≠ []
  mnemonic : ∀ c ∈ r.mnemonic.toList, upperChar c = [c] ∧ c ≠ ';' ∧ isBlank c = false

/-- The line of the row without a blank at its end. -/
def body (r : Row) : List Char :=
  [r.entry.toList, (hexByte r.opcode).toList].flatMap (· ++ [';']) ++
    (r.mnemonic.toList ++ r.shape.operands)

end Row

namespace Shape

open Text

theorem pattern_plain (s : Shape) :
    ∀ c ∈ s.pattern.toList, upperChar c = [c] ∧ c ≠ ';' ∧ isBlank c = false := by
  have hall : s.pattern.toList.all fun c => upperChar c = [c] ∧ c ≠ ';' ∧ isBlank c = false := by
    cases s <;> decide
  intro c hc
  exact of_decide_eq_true (List.all_eq_true.mp hall c hc)

theorem find?_pattern (s : Shape) : all.find? (·.pattern = s.pattern) = some s := by
  cases s <;> decide

/-- Only the blank in front goes away. -/
theorem squeeze_operands (s : Shape) : squeeze (String.ofList s.operands) = s.pattern := by
  have hfilter : (s.pattern.toList.filter fun c => !isBlank c) = s.pattern.toList := by
    rw [List.filter_eq_self]
    intro c hc
    rw [(s.pattern_plain c hc).2.2]
    rfl
  rw [squeeze, String.toList_ofList, operands]
  split
  case isTrue himplied =>
    rw [himplied]
    rfl
  case isFalse =>
    rw [List.filter_cons_of_neg (by decide), hfilter, String.ofList_toList]

theorem ofPattern?_operands (s : Shape) : ofPattern? (String.ofList s.operands) = some s := by
  rw [ofPattern?, squeeze_operands, find?_pattern]

theorem operands_upper (s : Shape) : ∀ c ∈ s.operands, upperChar c = [c] ∧ c ≠ ';' ∧ c ≠ '\n' := by
  intro c hc
  rw [operands] at hc
  split at hc
  · cases hc
  rcases List.mem_cons.mp hc with rfl | hc
  · decide
  · obtain ⟨hupper, hsemicolon, hblank⟩ := s.pattern_plain c hc
    refine ⟨hupper, hsemicolon, ?_⟩
    rintro rfl
    exact absurd hblank (by decide)

theorem takeWhile_operands (s : Shape) : (s.operands.takeWhile fun c => !isBlank c) = [] := by
  rw [operands]
  split <;> rfl

theorem dropWhile_operands (s : Shape) :
    (s.operands.dropWhile fun c => !isBlank c) = s.operands := by
  rw [operands]
  split <;> rfl

theorem getLast?_operands (s : Shape) : ∀ c ∈ s.operands.getLast?, isBlank c = false := by
  intro c hc
  rw [operands] at hc
  split at hc
  case isTrue => cases hc
  case isFalse himplied =>
    have hne : s.pattern.toList ≠ [] := by
      cases s with
      | implied => exact absurd rfl himplied
      | _ => decide
    rw [List.getLast?_cons_of_ne_nil hne] at hc
    exact (s.pattern_plain c (List.mem_of_getLast? hc)).2.2

end Shape

namespace Row

open Text

variable {r : Row}

theorem toList_text (r : Row) :
    r.text.toList = r.body ++ if r.shape = .implied then [' '] else [] := by
  have hpattern : ' ' :: r.shape.pattern.toList =
      r.shape.operands ++ if r.shape = .implied then [' '] else [] := by
    cases r.shape <;> rfl
  simp only [text, body, String.toList_append, List.append_assoc, List.flatMap_cons, List.flatMap_nil,
    List.append_nil, ← hpattern]
  rfl

theorem Legible.trimmed_field (h : r.Legible) :
    Trimmed (r.mnemonic.toList ++ r.shape.operands) := by
  constructor
  · intro c hc
    rw [List.head?_append, List.head?_eq_some_head h.mnemonic_ne] at hc
    cases hc
    exact (h.mnemonic _ (List.head_mem h.mnemonic_ne)).2.2
  · intro c hc
    rw [List.getLast?_append] at hc
    cases hoperands : r.shape.operands.getLast? with
    | some d =>
      rw [hoperands] at hc
      cases hc
      exact r.shape.getLast?_operands c hoperands
    | none =>
      rw [hoperands, List.getLast?_eq_some_getLast h.mnemonic_ne] at hc
      cases hc
      exact (h.mnemonic _ (List.getLast_mem h.mnemonic_ne)).2.2

theorem Legible.trimmed_body (h : r.Legible) : Trimmed r.body := by
  constructor
  · intro c hc
    rw [body, List.flatMap_cons, List.append_assoc, List.append_assoc, List.head?_append] at hc
    cases hentry : r.entry.toList.head? with
    | some d =>
      rw [hentry] at hc
      cases hc
      exact h.trimmed.head c hentry
    | none =>
      rw [hentry] at hc
      cases hc
      decide
  · have hne : r.mnemonic.toList ++ r.shape.operands ≠ [] := by simp [h.mnemonic_ne]
    intro c hc
    rw [body, List.getLast?_append, List.getLast?_eq_some_getLast hne] at hc
    exact h.trimmed_field.last c ((List.getLast?_eq_some_getLast hne).trans hc)

theorem body_eq (r : Row) : r.body = r.entry.toList ++ ';' :: hexChar (r.opcode.toNat / 16) ::
    hexChar (r.opcode.toNat % 16) :: ';' :: (r.mnemonic.toList ++ r.shape.operands) := by
  simp [body, toList_hexByte]

theorem body_ne_nil (r : Row) : r.body ≠ [] := by
  simp [body]

/-- Trimmed, a line has no blank behind the mnemonic of a bare row. -/
theorem Legible.trimChars_text (h : r.Legible) : trimChars r.text.toList = r.body := by
  rw [toList_text]
  refine h.trimmed_body.trimChars_append r.body_ne_nil ?_
  split
  · simp only [List.mem_singleton, forall_eq]
    decide
  · simp

/-- Every character of the line is in upper case, and none is a line end. -/
theorem Legible.body_upper (h : r.Legible) : ∀ c ∈ r.body, upperChar c = [c] ∧ c ≠ '\n' := by
  intro c hc
  simp only [body, List.flatMap_cons, List.flatMap_nil, List.append_nil, List.mem_append,
    List.mem_singleton] at hc
  rcases hc with ((hc | rfl) | hc | rfl) | hc | hc
  · exact ⟨(h.entry c hc).1, (h.entry c hc).2.2⟩
  · decide
  · have hplain := hexByte_plain hc
    exact ⟨hplain.1, fun heq => by simp [heq] at hplain⟩
  · decide
  · obtain ⟨hupper, -, hblank⟩ := h.mnemonic c hc
    refine ⟨hupper, ?_⟩
    rintro rfl
    exact absurd hblank (by decide)
  · exact ⟨(r.shape.operands_upper c hc).1, (r.shape.operands_upper c hc).2.2⟩

theorem Legible.splitAt_body (h : r.Legible) : splitAt ';' r.body =
    [r.entry.toList, (hexByte r.opcode).toList, r.mnemonic.toList ++ r.shape.operands] := by
  have hpieces : ∀ piece ∈ [r.entry.toList, (hexByte r.opcode).toList], ';' ∉ piece := by
    simp only [List.mem_cons, List.not_mem_nil, or_false, forall_eq_or_imp, forall_eq]
    refine ⟨fun hmem => (h.entry _ hmem).2.1 rfl, fun hmem => ?_⟩
    simpa using (hexByte_plain hmem).2.2
  refine splitAt_flatMap hpieces fun hmem => ?_
  rcases List.mem_append.mp hmem with hmem | hmem
  · exact (h.mnemonic _ hmem).2.1 rfl
  · exact (r.shape.operands_upper _ hmem).2.1 rfl

/-- The third field: the mnemonic ends where the operands begin. -/
theorem Legible.ofFields_eq (h : r.Legible) (n : Nat) :
    ofFields n r.entry.toList (hexByte r.opcode).toList (r.mnemonic.toList ++ r.shape.operands) =
      .ok r := by
  have hcode : String.ofList (trimChars (hexByte r.opcode).toList) = hexByte r.opcode := by
    rw [(trimmed_hexByte _).trimChars_eq_self, String.ofList_toList]
  have hnot : ∀ c ∈ r.mnemonic.toList, (!isBlank c) = true := by
    intro c hc
    rw [(h.mnemonic c hc).2.2]
    rfl
  have htake : (r.mnemonic.toList ++ r.shape.operands).takeWhile (fun c => !isBlank c) =
      r.mnemonic.toList := by
    rw [List.takeWhile_append_of_pos hnot, r.shape.takeWhile_operands, List.append_nil]
  have hdrop : (r.mnemonic.toList ++ r.shape.operands).dropWhile (fun c => !isBlank c) =
      r.shape.operands := by
    rw [List.dropWhile_append_of_pos hnot, r.shape.dropWhile_operands]
  simp only [ofFields, hcode, hexNumber?_hexByte, h.trimmed_field.trimChars_eq_self, htake, hdrop,
    if_neg h.mnemonic_ne, Shape.ofPattern?_operands, h.trimmed.trimChars_eq_self,
    String.ofList_toList]

/-- A row in normal form is read back from its line. -/
theorem Legible.ofLine_eq (h : r.Legible) (n : Nat) :
    ofLine n (upper (String.ofList r.body)) = .ok r := by
  rw [ofLine, upper, String.toList_ofList, String.toList_ofList,
    flatMap_upperChar_of_forall fun c hc => (h.body_upper c hc).1, h.splitAt_body]
  exact h.ofFields_eq n

theorem Legible.holdsRow_body (h : r.Legible) : Table.holdsRow r.body := by
  have hfirst : r.body.take 2 ≠ ['/', '/'] := by
    have hentry := h.first
    rw [body, List.flatMap_cons, List.append_assoc, List.append_assoc]
    generalize r.entry.toList = cs at hentry
    -- behind an entry of one character stands the semicolon
    rcases cs with _ | ⟨a, _ | ⟨b, cs⟩⟩
    · simp
    · simp
    · exact hentry
  simpa [Table.holdsRow] using ⟨r.body_ne_nil, hfirst⟩

theorem Legible.text_ends (h : r.Legible) :
    '\n' ∉ r.text.toList ∧ r.text.toList.getLast? ≠ some '\r' := by
  have hbody : '\n' ∉ r.body := fun hmem => (h.body_upper _ hmem).2 rfl
  rw [toList_text]
  split
  · simp [hbody]
  · rw [List.append_nil]
    refine ⟨hbody, fun hlast => ?_⟩
    have hblank := h.trimmed_body.last _ hlast
    exact absurd hblank (by decide)

/-! ### Rows that are read -/

theorem exists_of_ofFields {n : Nat} {entry opcode pattern : List Char}
    (h : ofFields n entry opcode pattern = .ok r) :
    r.entry.toList = trimChars entry ∧
      r.mnemonic.toList = (trimChars pattern).takeWhile (fun c => !isBlank c) ∧
      r.mnemonic.toList ≠ [] := by
  unfold ofFields at h
  dsimp only at h
  split at h
  · cases h
  split at h
  · cases h
  next hne =>
  split at h
  · cases h
  · cases h
    simpa using hne

/-- Neither upper case nor the cut at semicolons brings two slashes to the front. -/
theorem take_two_ne {line : String} {entry : List Char} {rest : List (List Char)}
    (htrim : Trimmed line.toList) (hcomment : line.toList.take 2 ≠ ['/', '/'])
    (hsplit : splitAt ';' (upper line).toList = entry :: rest) :
    (trimChars entry).take 2 ≠ ['/', '/'] := by
  intro htwo
  obtain ⟨more, hmore⟩ := prefix_of_splitAt hsplit
  rw [upper, String.toList_ofList] at hmore
  have hslash : '/'.toNat ∈ marks := by decide
  obtain ⟨cs, hcs⟩ : ∃ cs, trimChars entry = '/' :: '/' :: cs := by
    rcases h : trimChars entry with _ | ⟨a, _ | ⟨b, cs⟩⟩ <;> simp_all
  -- the entry starts without a blank, since the line does
  have hdrop : entry.dropWhile isBlank = entry := by
    cases entry with
    | nil => rfl
    | cons d ds =>
      cases hd : isBlank d with
      | false => rw [List.dropWhile_cons, hd]; rfl
      | true =>
        obtain ⟨ds', hline, -⟩ :=
          eq_cons_of_flatMap_upperChar (mem_marks_of_isBlank hd) hmore.symm
        have hhead := htrim.head d (by rw [hline]; rfl)
        rw [hd] at hhead
        cases hhead
  obtain ⟨blanks, hentry⟩ := List.rdropWhile_prefix isBlank (l := entry.dropWhile isBlank)
  rw [← trimChars_eq, hcs, hdrop] at hentry
  rw [← hentry] at hmore
  obtain ⟨ds, hline, hds⟩ := eq_cons_of_flatMap_upperChar hslash hmore.symm
  obtain ⟨ds', rfl, -⟩ := eq_cons_of_flatMap_upperChar hslash hds
  rw [hline] at hcomment
  exact hcomment rfl

/-- A row that is read from a line in upper case is in normal form. -/
theorem legible_of_ofLine {line : String} {n : Nat} (htrim : Trimmed line.toList)
    (hlf : '\n' ∉ line.toList) (hcomment : line.toList.take 2 ≠ ['/', '/'])
    (h : ofLine n (upper line) = .ok r) : r.Legible := by
  unfold ofLine at h
  split at h
  next entry opcode pattern rest hsplit =>
    obtain ⟨hentry, hmnemonic, hne⟩ := exists_of_ofFields h
    have hmem : ∀ piece ∈ [entry, opcode, pattern], ∀ c ∈ piece,
        c ∈ (upper line).toList ∧ c ≠ ';' := by
      intro piece hpiece c hc
      have hpiece : piece ∈ splitAt ';' (upper line).toList := by
        rw [hsplit]
        exact List.mem_append_left rest hpiece
      refine ⟨mem_of_mem_splitAt hpiece hc, ?_⟩
      rintro rfl
      exact notMem_of_mem_splitAt piece hpiece hc
    constructor
    · rw [hentry]
      exact trimmed_trimChars entry
    · intro c hc
      rw [hentry] at hc
      obtain ⟨hc, hsemicolon⟩ := hmem entry (by simp) c (mem_of_mem_trimChars hc)
      refine ⟨upperChar_of_mem_upper hc, hsemicolon, ?_⟩
      rintro rfl
      exact hlf (mem_of_mem_upper hc (by decide))
    · rw [hentry]
      exact take_two_ne htrim hcomment hsplit
    · exact hne
    · intro c hc
      rw [hmnemonic] at hc
      have hblank := List.mem_takeWhile_imp hc
      have hpattern := mem_of_mem_trimChars ((List.takeWhile_prefix _).subset hc)
      obtain ⟨hc, hsemicolon⟩ := hmem pattern (by simp) c hpattern
      exact ⟨upperChar_of_mem_upper hc, hsemicolon, by simpa using hblank⟩
  next => cases h

/-- A character that is its own upper case and has no part in the form of a line. -/
def isPlain (c : Char) : Bool :=
  upperChar c = [c] ∧ isBlank c = false ∧ c ∉ [';', '/']

/-- A row with plain names is in normal form. -/
theorem legible_of_isPlain (hentry : r.entry.toList.all isPlain) (hne : r.mnemonic.toList ≠ [])
    (hmnemonic : r.mnemonic.toList.all isPlain) : r.Legible := by
  simp only [List.all_eq_true, isPlain, decide_eq_true_eq, List.mem_cons, List.not_mem_nil, or_false,
    not_or] at hentry hmnemonic
  constructor
  case trimmed =>
    exact ⟨fun c hc => (hentry c (List.mem_of_head? hc)).2.1,
      fun c hc => (hentry c (List.mem_of_getLast? hc)).2.1⟩
  case entry =>
    intro c hc
    obtain ⟨hupper, hblank, hsemicolon, -⟩ := hentry c hc
    refine ⟨hupper, hsemicolon, ?_⟩
    rintro rfl
    exact absurd hblank (by decide)
  case first =>
    intro htwo
    have hslash : '/' ∈ r.entry.toList.take 2 := by simp [htwo]
    exact (hentry '/' (List.mem_of_mem_take hslash)).2.2.2 rfl
  case mnemonic_ne => exact hne
  case mnemonic =>
    intro c hc
    obtain ⟨hupper, hblank, hsemicolon, -⟩ := hmnemonic c hc
    exact ⟨hupper, hsemicolon, hblank⟩

theorem legible_ofEnd : ofEnd.Legible :=
  legible_of_isPlain (by decide) (by decide) (by decide)

end Row

/-! ### Tables -/

namespace Table

open Text

/-- The rows as a text, one per line. -/
def text (t : Table) : String :=
  String.join (t.rows.map fun r => r.text ++ "\n")

theorem legible_of_listed {source : String} {rows : List Row} (h : listed source = .ok rows) :
    ∀ r ∈ rows, r.Legible := by
  rw [listed_eq_ok_iff] at h
  have hlines : ∀ u ∈ ((lines source).map trim).filterMap rowText?,
      ∀ r, Row.ofLine 0 u = .ok r → r.Legible := by
    intro u hu r hr
    obtain ⟨line, hline, htext⟩ := List.mem_filterMap.mp hu
    obtain ⟨raw, hraw, rfl⟩ := List.mem_map.mp hline
    rw [rowText?, Option.ite_none_left_eq_some, not_or] at htext
    obtain ⟨⟨-, hcomment⟩, heq⟩ := htext
    rw [← Option.some.inj heq] at hr
    refine Row.legible_of_ofLine ?_ ?_ hcomment hr
    · rw [trim, String.toList_ofList]
      exact trimmed_trimChars _
    · rw [trim, String.toList_ofList]
      exact fun hmem => notMem_of_mem_lines hraw (mem_of_mem_trimChars hmem)
  generalize ((lines source).map trim).filterMap rowText? = us at h hlines
  induction h with
  | nil => simp
  | cons hr _ ih =>
    obtain ⟨hu, hus⟩ := List.forall_mem_cons.mp hlines
    exact List.forall_mem_cons.mpr ⟨hu _ hr, ih hus⟩

/-- Lines that are rows in normal form once they are trimmed list these rows, whatever blank lines and
comments stand between them. -/
theorem listed_eq_ok_of_bodies {source : String} {rows : List Row} (h : ∀ r ∈ rows, r.Legible)
    (hbodies : ((lines source).map fun l => trimChars l.toList).filter holdsRow =
      rows.map Row.body) : listed source = .ok rows := by
  have htexts : ((lines source).map trim).filterMap rowText? =
      rows.map fun r => upper (String.ofList r.body) := by
    have hmap : rows.map (fun r => upper (String.ofList r.body)) =
        (rows.map Row.body).filterMap fun cs => some (upper (String.ofList cs)) := by
      rw [List.filterMap_map, ← List.filterMap_eq_map]
      rfl
    rw [hmap, ← hbodies, List.filterMap_filter, List.filterMap_map, List.filterMap_map]
    refine List.filterMap_congr fun l _ => ?_
    simp only [Function.comp_apply, rowText?, trim, String.toList_ofList, holdsRow,
      decide_eq_true_eq, ← not_or, ite_not]
  rw [listed_eq_ok_iff, htexts, List.forall₂_map_left_iff, List.forall₂_same]
  exact fun r hr => (h r hr).ofLine_eq 0

/-- Rows in normal form are listed by their text. -/
theorem listed_text {t : Table} (h : ∀ r ∈ t.rows, r.Legible) :
    lines t.text = t.rows.map Row.text ∧ listed t.text = .ok t.rows := by
  have hlines : lines t.text = t.rows.map Row.text := by
    have htext : t.text = String.join ((t.rows.map Row.text).map (· ++ "\n")) := by
      rw [List.map_map]
      rfl
    rw [htext]
    exact lines_join (List.forall_mem_map.mpr fun r hr => (h r hr).text_ends.1)
      (List.forall_mem_map.mpr fun r hr => (h r hr).text_ends.2)
  refine ⟨hlines, listed_eq_ok_of_bodies h ?_⟩
  have hbodies : (t.rows.map Row.text).map (fun l => trimChars l.toList) = t.rows.map Row.body := by
    rw [List.map_map]
    exact List.map_congr_left fun r hr => (h r hr).trimChars_text
  rw [hlines, hbodies, List.filter_eq_self]
  exact List.forall_mem_map.mpr fun r hr => (h r hr).holdsRow_body

/-- Where all mnemonics have a group, `END` has one too once it has a row. -/
theorem misfit?_withEnd {t : Table} (h : t.misfit? = none) : t.withEnd.misfit? = none := by
  rw [misfit?_eq_none_iff] at h ⊢
  intro m hm
  by_cases hnew : m = endMnemonic ∧ t.variants endMnemonic = []
  · have hvariants : t.withEnd.variants m = [Row.ofEnd] := by rw [variants_withEnd, if_pos hnew]
    refine ⟨.implied, ?_⟩
    rw [group?_eq, if_neg hm, signature, hvariants]
    rfl
  · rw [variants_withEnd, if_neg hnew] at hm
    obtain ⟨g, hg⟩ := h m hm
    exact ⟨g, (group?_withEnd hm).trans hg⟩

theorem withEnd_withEnd (t : Table) : t.withEnd.withEnd = t.withEnd := by
  have hrow : t.withEnd.rows.any (·.mnemonic = endMnemonic) := by
    unfold withEnd
    split
    · assumption
    · simp [Row.ofEnd]
  rw [withEnd, if_pos hrow]

/-- Where all mnemonics have a group, each of them is listed with its group. -/
theorem groups_of_misfit?_eq_none {t : Table} (h : t.misfit? = none) :
    t.groups.map Prod.fst = t.mnemonics ∧ ∀ m g, (m, g) ∈ t.groups ↔ t.group? m = some g := by
  constructor
  · have hsome : ∀ m ∈ t.mnemonics, ((t.group? m).map (m, ·)).map Prod.fst = some m := by
      intro m hm
      obtain ⟨g, hg⟩ := misfit?_eq_none_iff.mp h m (mem_mnemonics.mp hm)
      rw [hg]
      rfl
    rw [groups, List.map_filterMap, List.filterMap_congr hsome, List.filterMap_some]
  · intro m g
    rw [groups, List.mem_filterMap]
    constructor
    · rintro ⟨m', -, hm'⟩
      obtain ⟨g', hg', heq⟩ := Option.map_eq_some_iff.mp hm'
      cases heq
      exact hg'
    · intro hg
      obtain ⟨row, hrow⟩ := exists_variant_of_group? hg
      exact ⟨m, mem_mnemonics.mpr (List.ne_nil_of_mem hrow), by rw [hg]; rfl⟩

/-- A table that is written back, one row per line and the row of `END` included, is read as the same
table: the same rows in the same order, and with them the same groups, which belong to the mnemonics in
order of first appearance. -/
theorem read_text {source : String} {t : Table} (h : read source = .ok t) :
    lines t.text = t.rows.map Row.text ∧ read t.text = .ok t ∧
      t.groups.map Prod.fst = t.mnemonics ∧ ∀ m g, (m, g) ∈ t.groups ↔ t.group? m = some g := by
  obtain ⟨rows, hlisted, -⟩ := bind_ok_iff.mp h
  obtain ⟨hfits, rfl⟩ := (read_eq_ok_iff hlisted).mp h
  have hlegible : ∀ r ∈ (withEnd ⟨rows⟩).rows, r.Legible := by
    have hrows := legible_of_listed hlisted
    unfold withEnd
    split
    · exact hrows
    · exact List.forall_mem_append.mpr ⟨hrows, List.forall_mem_singleton.mpr Row.legible_ofEnd⟩
  obtain ⟨hlines, hagain⟩ := listed_text hlegible
  have hfits' := misfit?_withEnd hfits
  exact ⟨hlines, (read_eq_ok_iff hagain).mpr ⟨hfits', (withEnd_withEnd _).symm⟩,
    groups_of_misfit?_eq_none hfits'⟩

/-- A comment, a blank line, an entry that grows in upper case, a blank that is no space, and a field
too many. -/
theorem read_text_moves :
    ∃ t, read "// moves\n stra\u00DFe ;+d0; mov reg ,const\n\n;0D5;mov\u00A0reg,reg ;x\r\n" = .ok t ∧
      t.text = "STRASSE;D0;MOV REG,CONST\n;D5;MOV REG,REG\n;00;END \n" ∧ read t.text = .ok t ∧
      t.groups.map Prod.fst = ["MOV", "END"] := by
  have hread : read "// moves\n stra\u00DFe ;+d0; mov reg ,const\n\n;0D5;mov\u00A0reg,reg ;x\r\n" =
      .ok ⟨[⟨"STRASSE", "MOV", 0xD0, .registerConst⟩, ⟨"", "MOV", 0xD5, .registerRegister⟩,
        Row.ofEnd]⟩ := by
    decide +kernel
  obtain ⟨-, hagain, hgroups, -⟩ := read_text hread
  exact ⟨_, hread, by decide +kernel, hagain, hgroups.trans (by decide +kernel)⟩

/-! ### The built-in table -/

/-- Lines that are given by their characters list the rows whose form they have. -/
theorem listed_join {ls : List String} {css : List (List Char)} {rows : List Row}
    (hlegible : ∀ r ∈ rows, r.Legible)
    (hcss : List.Forall₂ (fun l cs => l = String.ofList cs) ls css)
    (hends : css.all fun cs => cs.all fun c => c ≠ '\n' ∧ c ≠ '\r')
    (hbodies : (css.map trimChars).filter holdsRow = rows.map Row.body) :
    listed (String.join (ls.map (· ++ "\n"))) = .ok rows := by
  obtain rfl : ls = css.map String.ofList := by
    rw [← List.forall₂_eq_eq_eq, List.forall₂_map_right_iff]
    exact hcss
  have hplain : ∀ cs ∈ css, ∀ c ∈ cs, c ≠ '\n' ∧ c ≠ '\r' := by simpa using hends
  have hlines : lines (String.join ((css.map String.ofList).map (· ++ "\n"))) =
      css.map String.ofList := by
    refine lines_join (List.forall_mem_map.mpr fun cs hcs => ?_)
      (List.forall_mem_map.mpr fun cs hcs => ?_) <;> rw [String.toList_ofList]
    · exact fun hmem => (hplain cs hcs _ hmem).1 rfl
    · exact fun hlast => (hplain cs hcs _ (List.mem_of_getLast? hlast)).2 rfl
  refine listed_eq_ok_of_bodies hlegible ?_
  rw [hlines, List.map_map, ← hbodies]
  congr 1
  exact List.map_congr_left fun cs _ => congrArg trimChars String.toList_ofList

theorem legible_builtin : ∀ r ∈ builtin.rows, r.Legible := by
  have hplain : builtin.rows.all fun r => r.entry.toList.all Row.isPlain ∧
      r.mnemonic.toList ≠ [] ∧ r.mnemonic.toList.all Row.isPlain := by
    decide +kernel
  intro r hr
  obtain ⟨hentry, hne, hmnemonic⟩ := of_decide_eq_true (List.all_eq_true.mp hplain r hr)
  exact Row.legible_of_isPlain hentry hne hmnemonic

/-- The built-in table is what its text says. -/
theorem read_builtinText : read builtinText = .ok builtin := by
  have hlisted : listed builtinText = .ok builtin.rows.dropLast := by
    apply listed_join fun r hr => legible_builtin r (List.mem_of_mem_dropLast hr)
    case hcss =>
      -- the characters are read off the literals, which is faster than to decode them
      unfold builtinLines
      repeat constructor
    case hends => decide +kernel
    case hbodies =>
      rw [List.map_congr_left fun (r : Row) _ => r.body_eq]
      decide +kernel
  exact (read_eq_ok_iff hlisted).mpr ⟨by decide +kernel, by decide +kernel⟩

end Table

end Asm8
