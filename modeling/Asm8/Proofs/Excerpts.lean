import Asm8.Proofs.Faults
import Asm8.Proofs.Segments
import Asm8.Report.Excerpt

/-!
A diagnostic shows the line that it is about.

The lexer ends a line at a CR, an excerpt looks for a line that ends in LF. Where every line end is CR LF
the two see the same lines, except that an empty line at the end counts for the lexer only, which finds
no token there:

    A CR LF B CR LF          lexer: A, B, empty       excerpt: A, B
    A CR LF CR LF B          lexer: A, empty, B       excerpt: A, empty, B

Since a diagnostic has the line of a token, or line 1 where there is none, its line is one of them.
-/

namespace Asm8

/-! ### Lines that end in CR LF -/

section KeepLast

variable {α : Type} {p q : α → Bool}

theorem getElem?_keepLast (p : α → Bool) (xs : List α) (i : Nat) :
    (keepLast p xs)[i]? = xs[i]? ∨
      (keepLast p xs)[i]? = none ∧ ∃ x, xs[i]? = some x ∧ p x = false := by
  rcases List.eq_nil_or_concat' xs with rfl | ⟨ys, y, rfl⟩
  · exact .inl rfl
  · rw [keepLast_concat]
    by_cases hy : p y
    · rw [if_pos hy]
      exact .inl rfl
    · rw [if_neg hy]
      rcases Nat.lt_trichotomy i ys.length with hlt | rfl | hgt
      · exact .inl (List.getElem?_append_left hlt).symm
      · exact .inr ⟨by simp, y, by simp, by simpa using hy⟩
      · refine .inl ?_
        rw [List.getElem?_eq_none (by omega), List.getElem?_eq_none (by simp; omega)]

theorem length_keepLast_le (h : ∀ x, p x → q x) (xs : List α) :
    (keepLast p xs).length ≤ (keepLast q xs).length := by
  rcases List.eq_nil_or_concat' xs with rfl | ⟨ys, y, rfl⟩
  · exact Nat.le_refl _
  · rw [keepLast_concat, keepLast_concat]
    by_cases hp : p y
    · simp [hp, h y hp]
    · rw [if_neg hp]
      split <;> simp

end KeepLast

namespace Text

/-- Every line end written as CR LF: a CR LF, a CR alone and an LF alone each count as one. -/
def crlfChars : List Char → List Char
  | [] => []
  | '\r' :: '\n' :: cs => '\r' :: '\n' :: crlfChars cs
  | '\r' :: cs => '\r' :: '\n' :: crlfChars cs
  | '\n' :: cs => '\r' :: '\n' :: crlfChars cs
  | c :: cs => c :: crlfChars cs

/-- A single character is replaced wherever it stands. -/
theorem replace_singleton (x : Char) (new cs : List Char) :
    replace [x] new cs = cs.flatMap fun c => if c = x then new else [c] := by
  induction cs with
  | nil => rfl
  | cons c cs ih =>
    rw [replace, replaceFrom, List.flatMap_cons, ← ih]
    by_cases hc : c = x
    · simp [hc, replace]
    · simp [hc, Ne.symm hc, replace]

theorem replace_pair (x y : Char) (new cs : List Char) :
    replace [x, y] new (x :: y :: cs) = new ++ replace [x, y] new cs := by
  simp [replace, replaceFrom]

theorem replace_pair_of_not {x y c : Char} {cs : List Char} (new : List Char)
    (h : ¬(c = x ∧ cs.head? = some y)) :
    replace [x, y] new (c :: cs) = c :: replace [x, y] new cs := by
  rw [replace, replaceFrom, if_neg]
  · rfl
  · intro hpattern
    cases cs with
    | nil => simp at hpattern
    | cons d cs =>
      simp only [List.isPrefixOf, Bool.and_eq_true, beq_iff_eq, Bool.and_true] at hpattern
      exact h ⟨hpattern.1.symm, congrArg some hpattern.2.symm⟩

/-- The three replacements write every line end as CR LF. -/
theorem withCRLF_eq (s : String) : withCRLF s = String.ofList (crlfChars s.toList) := by
  rw [withCRLF]
  generalize s.toList = cs
  simp only [replace_singleton]
  congr 1
  fun_induction crlfChars cs with
  | case1 => rfl
  | case2 cs ih => simpa [replace_pair] using ih
  | case3 cs hnext ih =>
    have hnot : ¬('\r' = '\r' ∧ cs.head? = some '\n') := by
      rintro ⟨-, hhead⟩
      obtain ⟨tail, rfl⟩ := List.head?_eq_some_iff.mp hhead
      exact hnext tail rfl
    simpa [replace_pair_of_not _ hnot] using ih
  | case4 cs ih =>
    have hnot : ¬('\n' = '\r' ∧ cs.head? = some '\n') := fun h => absurd h.1 (by decide)
    simpa [replace_pair_of_not _ hnot] using ih
  | case5 c cs hpair hcr hlf ih =>
    have hnot : ¬(c = '\r' ∧ cs.head? = some '\n') := fun h => hcr h.1
    simpa [replace_pair_of_not _ hnot, show c ≠ '\r' from hcr, show c ≠ '\n' from hlf] using ih

/-- The characters are these lines, with CR LF after each but the last. -/
structure Ruled (cs : List Char) (lines : List (List Char)) (last : List Char) : Prop where
  eq : cs = lines.flatMap (· ++ ['\r', '\n']) ++ last
  notMem : ∀ line ∈ lines, '\r' ∉ line ∧ '\n' ∉ line
  notMem_last : '\r' ∉ last ∧ '\n' ∉ last

namespace Ruled

variable {cs last : List Char} {lines : List (List Char)}

theorem lineEnd (h : Ruled cs lines last) : Ruled ('\r' :: '\n' :: cs) ([] :: lines) last where
  eq := by simp [h.eq]
  notMem := by simpa using h.notMem
  notMem_last := h.notMem_last

/-- Another character belongs to the first line. -/
theorem cons (h : Ruled cs lines last) {c : Char} (hcr : c ≠ '\r') (hlf : c ≠ '\n') :
    ∃ lines' last', Ruled (c :: cs) lines' last' := by
  obtain ⟨hcs, hlines, hlast⟩ := h
  cases lines with
  | nil =>
    refine ⟨[], c :: last, by simpa using hcs, by simp, ?_⟩
    simp [hcr.symm, hlf.symm, hlast]
  | cons first lines =>
    rw [List.forall_mem_cons] at hlines
    refine ⟨(c :: first) :: lines, last, by simp [hcs], ?_, hlast⟩
    rw [List.forall_mem_cons]
    exact ⟨by simp [hcr.symm, hlf.symm, hlines.1], hlines.2⟩

end Ruled

/-- A text with all line ends written as CR LF has such lines. -/
theorem exists_ruled (cs : List Char) : ∃ lines last, Ruled (crlfChars cs) lines last := by
  fun_induction crlfChars cs with
  | case1 => exact ⟨[], [], rfl, by simp, by simp⟩
  | case2 cs ih =>
    obtain ⟨lines, last, h⟩ := ih
    exact ⟨_, _, h.lineEnd⟩
  | case3 cs _ ih =>
    obtain ⟨lines, last, h⟩ := ih
    exact ⟨_, _, h.lineEnd⟩
  | case4 cs ih =>
    obtain ⟨lines, last, h⟩ := ih
    exact ⟨_, _, h.lineEnd⟩
  | case5 c cs _ hcr hlf ih =>
    obtain ⟨lines, last, h⟩ := ih
    exact h.cons hcr hlf

theorem dropReturn_concat (cs : List Char) : dropReturn (cs ++ ['\r']) = cs := by
  simp [dropReturn]

/-- Lines that end in CR LF are found by their LF, without an empty last one. -/
theorem Ruled.lineChars_eq {cs last : List Char} {lines : List (List Char)}
    (h : Ruled cs lines last) : lineChars cs = keepLast (· ≠ []) (lines ++ [last]) := by
  have hpieces : splitAt '\n' cs = lines.map (· ++ ['\r']) ++ [last] := by
    rw [← splitAt_flatMap ?_ h.notMem_last.2, List.flatMap_map, h.eq]
    · simp
    · rw [List.forall_mem_map]
      intro line hline
      simp [(h.notMem line hline).2]
  rw [lineChars, hpieces]
  simp [keepLast, Function.comp_def, dropReturn_concat]

/-- The lines of an excerpt are those of the lexer, without an empty last one. -/
theorem lineChars_withCRLF (text : String) :
    lineChars (withCRLF text).toList =
      keepLast (· ≠ []) (Lexer.sourceLines (withCRLF text)) := by
  obtain ⟨lines, last, h⟩ := exists_ruled text.toList
  rw [← String.toList_ofList (l := crlfChars text.toList)] at h
  rw [withCRLF_eq, h.lineChars_eq,
    Lexer.sourceLines_of_toList (by decide) h.eq h.notMem h.notMem_last]

end Text

theorem toList_excerptLine (text : String) (n : Nat) :
    (excerptLine (Text.withCRLF text) n).toList =
      ((Lexer.sourceLines (Text.withCRLF text))[n - 1]?).getD [] := by
  rw [excerptLine, Text.lines, Text.lineChars_withCRLF, List.getElem?_map]
  rcases getElem?_keepLast (· ≠ []) (Lexer.sourceLines (Text.withCRLF text)) (n - 1) with
    hsame | ⟨hnone, cs, hcs, hempty⟩
  · rw [hsame]
    cases (Lexer.sourceLines (Text.withCRLF text))[n - 1]? <;> simp
  · have hnil : cs = [] := by simpa using hempty
    rw [hnone, hcs, hnil]
    rfl

/-! ### Tokens of a line -/

namespace Lexer

/-- The number of a line only shows in its tokens. -/
theorem lineTokens_renumber (n m col : Nat) (cs : List Char) :
    lineTokens n col cs = (lineTokens m col cs).map ({ · with line := n }) := by
  fun_induction lineTokens m col cs with
  | case1 => rw [lineTokens]; rfl
  | case2 col cs ih => rw [lineTokens, if_pos rfl, ih]
  | case3 col c cs hspace ih => rw [lineTokens, if_neg hspace, ih]; rfl

theorem line_of_mem_closedLines {n : Nat} {lines : List (List Char)} {tok : Token}
    (h : tok ∈ closedLines n lines) : n ≤ tok.line ∧ tok.line < n + lines.length := by
  induction lines generalizing n with
  | nil => cases h
  | cons cs lines ih =>
    rw [List.length_cons]
    rcases List.mem_append.mp h with h | h
    · have hline := (line_lineTokens n 1 cs).line_eq tok h
      omega
    · rcases List.mem_cons.mp h with rfl | h
      · simp [newlineAfter]
      · have hrest := ih h
        omega

/-- The tokens with a line number are those of the line with this number. -/
theorem filter_closedLines {n k : Nat} (hk : n ≤ k) (lines : List (List Char)) :
    (closedLines n lines).filter (fun tok => tok.line = k ∧ tok.kind ≠ .newline) =
      lineTokens k 1 ((lines[k - n]?).getD []) := by
  induction lines generalizing n with
  | nil => simp [closedLines, lineTokens]
  | cons cs lines ih =>
    have hline := (line_lineTokens n 1 cs).line_eq
    rw [closedLines, List.filter_append, List.filter_cons_of_neg (by simp [newlineAfter])]
    rcases Nat.eq_or_lt_of_le hk with rfl | hlt
    · have hown : (lineTokens n 1 cs).filter (fun tok => tok.line = n ∧ tok.kind ≠ .newline) =
          lineTokens n 1 cs := by
        rw [List.filter_eq_self]
        intro tok htok
        simp [hline tok htok, (line_lineTokens n 1 cs).kind_ne_newline tok htok]
      have hother : (closedLines (n + 1) lines).filter
          (fun tok => tok.line = n ∧ tok.kind ≠ .newline) = [] := by
        rw [List.filter_eq_nil_iff]
        intro tok htok
        have hbound := line_of_mem_closedLines htok
        simp only [decide_eq_true_eq, not_and]
        omega
      rw [hown, hother]
      simp
    · have hown : (lineTokens n 1 cs).filter (fun tok => tok.line = k ∧ tok.kind ≠ .newline) =
          [] := by
        rw [List.filter_eq_nil_iff]
        intro tok htok
        have hbound := hline tok htok
        simp only [decide_eq_true_eq, not_and]
        omega
      have hindex : k - n = (k - (n + 1)) + 1 := by omega
      rw [hown, ih hlt, hindex]
      rfl

end Lexer

/-- The tokens with a line number are those of the line with this number. -/
theorem filter_tokenize {n : Nat} (hn : 1 ≤ n) (source : String) :
    (tokenize source).filter (fun tok => tok.line = n ∧ tok.kind ≠ .newline) =
      Lexer.lineTokens n 1 (((Lexer.sourceLines source)[n - 1]?).getD []) := by
  rw [tokenize_eq, Lexer.filter_closedLines hn]
  rcases getElem?_keepLast Lexer.hasInk (Lexer.sourceLines source) (n - 1) with
    hsame | ⟨hnone, cs, hcs, hblank⟩
  · rw [hsame]
  · rw [hnone, hcs, Option.getD_none, Option.getD_some, Lexer.lineTokens_eq_nil_iff.mpr hblank,
      Lexer.lineTokens]

/-- A text of one line has the tokens of this line. -/
theorem filter_tokenize_of_notMem {source : String}
    (h : '\r' ∉ source.toList ∧ '\n' ∉ source.toList) :
    (tokenize source).filter (·.kind ≠ .newline) = Lexer.lineTokens 1 1 source.toList := by
  have hline : tokenize source = Lexer.closedLines 1
      (if Lexer.hasInk source.toList then [source.toList] else []) :=
    tokenize_of_toList (rfl : ['\r'].filter (· ≠ '\n') = ['\r']) rfl (by simp) h
  rw [hline]
  by_cases hink : Lexer.hasInk source.toList
  · have hkinds := (Lexer.line_lineTokens 1 1 source.toList).kind_ne_newline
    rw [if_pos hink, Lexer.closedLines, Lexer.closedLines, List.filter_append,
      List.filter_cons_of_neg (by simp [Lexer.newlineAfter]), List.filter_nil, List.append_nil,
      List.filter_eq_self]
    exact fun tok htok => decide_eq_true (hkinds tok htok)
  · rw [if_neg hink, Lexer.lineTokens_eq_nil_iff.mpr (by simpa using hink)]
    rfl

theorem exists_first_line {source : String} (h : tokenize source ≠ []) :
    ∃ tok ∈ tokenize source, tok.line = 1 := by
  rw [tokenize_eq] at h ⊢
  cases hlines : keepLast Lexer.hasInk (Lexer.sourceLines source) with
  | nil =>
    rw [hlines] at h
    exact absurd rfl h
  | cons cs lines => exact ⟨Lexer.newlineAfter 1 cs, by simp [Lexer.closedLines], rfl⟩

/-- Every token stands on a line that an excerpt can show. -/
theorem line_of_mem_tokenize {text : String} {tok : Token}
    (h : tok ∈ tokenize (Text.withCRLF text)) :
    1 ≤ tok.line ∧ tok.line ≤ (Text.lines (Text.withCRLF text)).length := by
  have hink : ∀ cs : List Char, Lexer.hasInk cs → decide (cs ≠ []) = true := by
    rintro (_ | ⟨c, cs⟩) hcs
    · cases hcs
    · rfl
  have hle := length_keepLast_le hink (Lexer.sourceLines (Text.withCRLF text))
  rw [tokenize_eq] at h
  have hline := Lexer.line_of_mem_closedLines h
  rw [Text.lines, List.length_map, Text.lineChars_withCRLF]
  omega

/-- Take a text with all line ends written as CR LF. The tokens with a line number are those of the line
that an excerpt shows for this number. Where the text does not assemble, the diagnostic is about such a
line, the first one if there is none, and about the line of a token if there is one. -/
theorem assemble_error_line (text : String) :
    (∀ n, 1 ≤ n →
      (tokenize (Text.withCRLF text)).filter (fun tok => tok.line = n ∧ tok.kind ≠ .newline) =
        ((tokenize (excerptLine (Text.withCRLF text) n)).filter (·.kind ≠ .newline)).map
          ({ · with line := n })) ∧
    ∀ t d, assemble t (Text.withCRLF text) = .error d →
      1 ≤ d.line ∧ d.line ≤ max 1 (Text.lines (Text.withCRLF text)).length ∧
      (tokenize (Text.withCRLF text) ≠ [] →
        ∃ tok ∈ tokenize (Text.withCRLF text), tok.line = d.line) := by
  constructor
  · intro n hn
    have hline := toList_excerptLine text n
    have hends : '\r' ∉ (excerptLine (Text.withCRLF text) n).toList ∧
        '\n' ∉ (excerptLine (Text.withCRLF text) n).toList := by
      rw [hline]
      cases hcs : (Lexer.sourceLines (Text.withCRLF text))[n - 1]? with
      | none => simp
      | some cs => exact Lexer.notMem_of_mem_sourceLines (List.mem_of_getElem? hcs)
    rw [filter_tokenize hn, filter_tokenize_of_notMem hends, hline]
    exact Lexer.lineTokens_renumber n 1 1 _
  · intro t d hd
    rcases line_of_assembleTokens_error hd with hone | ⟨tok, htok, hline⟩
    · rw [hone]
      exact ⟨Nat.le_refl _, Nat.le_max_left _ _, exists_first_line⟩
    · have hbound := line_of_mem_tokenize htok
      rw [hline] at hbound
      exact ⟨hbound.1, Nat.le_trans hbound.2 (Nat.le_max_right _ _), fun _ => ⟨tok, htok, hline⟩⟩

/-- A jump that the third line leaves open is shown there. -/
theorem assemble_error_line_jump :
    assemble .jumps (Text.withCRLF "ORG 10\n\nJMP") = .error ⟨3, .unexpected "symbol" none⟩ ∧
    excerptLine (Text.withCRLF "ORG 10\n\nJMP") 3 = "JMP" ∧
    (tokenize (Text.withCRLF "ORG 10\n\nJMP")).filter
      (fun tok => tok.line = 3 ∧ tok.kind ≠ .newline) = [⟨.word "JMP", 3, 1⟩] ∧
    ∃ tok ∈ tokenize (Text.withCRLF "ORG 10\n\nJMP"), tok.line = 3 := by
  have herror : assemble .jumps (Text.withCRLF "ORG 10\n\nJMP") =
      .error ⟨3, .unexpected "symbol" none⟩ := by
    decide +kernel
  have hexcerpt : excerptLine (Text.withCRLF "ORG 10\n\nJMP") 3 = "JMP" := by
    decide +kernel
  obtain ⟨hlines, hdiagnostic⟩ := assemble_error_line "ORG 10\n\nJMP"
  refine ⟨herror, hexcerpt, ?_, (hdiagnostic _ _ herror).2.2 (by decide +kernel)⟩
  rw [hlines 3 (by decide), hexcerpt]
  decide +kernel

end Asm8
