import Asm8.Proofs.Excerpts
import Asm8.Proofs.Rendering

/-!
The stream of tokens of a source text.

What the encoder and the listings may rely on, whatever the text is. Each token comes behind the one
before it, a newline closes every line, and words, literals and comments hold only what belongs to
them. A token that lasts to the end of its line, a comment or a literal without its closing quote,
has the newline right behind it.

    text      N O LF P ␣ ' x CR L : ␣ ; y
    tokens    NOP (1,1)   'x (1,5)   newline (1,7)   L: (2,1)   ;y (2,4)   newline (2,6)

Nothing of a line shows in the tokens of another one, and an LF shows nowhere.
-/

namespace Asm8

/-! ### Kinds -/

namespace Lexer

/-- The characters that no word and no label holds. -/
def separators : List Char :=
  ['\r', '\n', ' ', ':', ',', '[', ']', ';', '\'', '"']

theorem notMem_separators_iff {c : Char} :
    c ∉ separators ↔ c ≠ '\r' ∧ c ≠ '\n' ∧ breaksWord c = false := by
  simp only [separators, breaksWord, List.mem_cons, List.not_mem_nil, or_false, not_or,
    Bool.or_eq_false_iff, decide_eq_false_iff_not]
  tauto

end Lexer

/-- A literal as it is cut from a line: it starts with its quote, which comes again as its last
character only. -/
structure Literal.Cut (quote : Char) (raw : String) : Prop where
  starts : raw.toList.head? = some quote
  again : quote ∉ raw.toList.tail.dropLast
  lineEnds : '\r' ∉ raw.toList ∧ '\n' ∉ raw.toList

namespace Kind

/-- What a token of a source text holds. -/
def Tidy : Kind → Prop
  | word s | label s => s ≠ "" ∧ ∀ c ∈ s.toList, c ∉ Lexer.separators
  | character raw => Literal.Cut '\'' raw
  | string raw => Literal.Cut '"' raw
  | comment body => '\r' ∉ body.toList ∧ '\n' ∉ body.toList
  | colon | comma | openBracket | closeBracket | newline => True

/-- Whether the token takes all that is left of its line: a comment does, and a literal that its
quote does not close. -/
def lastsLine : Kind → Bool
  | comment _ => true
  | character raw => !raw.toList.tail.contains '\''
  | string raw => !raw.toList.tail.contains '"'
  | _ => false

end Kind

/-- The token stands before the other one: on an earlier line, or on the same line further left. -/
def Token.Before (a b : Token) : Prop :=
  a.line < b.line ∨ a.line = b.line ∧ a.col < b.col

/-! ### Tokens of a line -/

namespace Lexer

variable {c quote : Char} {cs : List Char} {n col : Nat} {tok : Token}

theorem cut_quoted (hcr : '\r' ∉ quote :: cs) (hlf : '\n' ∉ quote :: cs) :
    Literal.Cut quote (quoted quote cs).1 := by
  by_cases hq : quote ∈ cs
  · obtain ⟨body, rest, rfl, hbody⟩ := List.eq_append_cons_of_mem hq
    rw [quoted_closed hbody]
    simp only [List.mem_cons, List.mem_append, not_or] at hcr hlf
    refine ⟨by simp, by simpa using hbody, ?_⟩
    simp [hcr, hlf]
  · rw [quoted_open hq]
    have hagain : quote ∉ cs.dropLast := fun hmem => hq (List.dropLast_subset cs hmem)
    exact ⟨by simp, by simpa using hagain, by simpa using And.intro hcr hlf⟩

theorem contains_quoted : (quoted quote cs).1.toList.tail.contains quote = true ∨
    (quoted quote cs).2 = [] := by
  by_cases hq : quote ∈ cs
  · obtain ⟨body, rest, rfl, hbody⟩ := List.eq_append_cons_of_mem hq
    rw [quoted_closed hbody]
    simp
  · rw [quoted_open hq]
    exact .inr rfl

theorem notMem_separators {w : List Char} (hw : ∀ d ∈ c :: w, breaksWord d = false)
    (hcr : '\r' ∉ c :: w) (hlf : '\n' ∉ c :: w) :
    String.ofList (c :: w) ≠ "" ∧ ∀ d ∈ (String.ofList (c :: w)).toList, d ∉ separators := by
  refine ⟨by simp [← String.toList_inj], fun d hd => ?_⟩
  rw [String.toList_ofList] at hd
  rw [notMem_separators_iff]
  exact ⟨fun heq => hcr (heq ▸ hd), fun heq => hlf (heq ▸ hd), hw d hd⟩

/-- A token of a line without line ends holds what it may hold. -/
theorem tidy_lexeme (hspace : c ≠ ' ') (hcr : '\r' ∉ c :: cs) (hlf : '\n' ∉ c :: cs) :
    (lexeme c cs).1.Tidy := by
  fun_cases lexeme c cs with
  | case5 =>
    simp only [List.mem_cons, not_or] at hcr hlf
    simp [Kind.Tidy, hcr, hlf]
  | case6 => exact cut_quoted hcr hlf
  | case7 => exact cut_quoted hcr hlf
  | case8 =>
    have hc : breaksWord c = false := by simp_all [breaksWord]
    obtain ⟨w, rest, hw, rfl | ⟨rfl, hrest⟩⟩ := word_cases cs
    · rw [word_label hw]
      exact notMem_separators (List.forall_mem_cons.mpr ⟨hc, hw⟩) (by simp_all) (by simp_all)
    · rw [word_word hw hrest]
      exact notMem_separators (List.forall_mem_cons.mpr ⟨hc, hw⟩) (by simp_all) (by simp_all)
  | _ => trivial

/-- Behind a token that takes the rest of its line nothing is left. -/
theorem lexeme_of_lastsLine : (lexeme c cs).1.lastsLine → (lexeme c cs).2 = [] := by
  fun_cases lexeme c cs with
  | case5 => exact fun _ => rfl
  | case6 => exact fun h => contains_quoted.resolve_left (by simpa [Kind.lastsLine] using h)
  | case7 => exact fun h => contains_quoted.resolve_left (by simpa [Kind.lastsLine] using h)
  | case8 =>
    obtain ⟨w, rest, hw, rfl | ⟨rfl, hrest⟩⟩ := word_cases cs
    · simp [word_label hw, Kind.lastsLine]
    · simp [word_word hw hrest, Kind.lastsLine]
  | _ => simp [Kind.lastsLine]

variable {xs ys : List Token}

theorem col_lt_of_mem (h : tok ∈ lineTokens n col cs) : tok.col < col + cs.length := by
  fun_induction lineTokens n col cs with
  | case1 => simp at h
  | case2 col _ ih =>
    have hlt := ih h
    simp only [List.length_cons]
    omega
  | case3 col c cs hc ih =>
    have hlength := congrArg List.length (spelling_lexeme c cs)
    simp only [List.length_append, String.length_toList] at hlength
    rcases List.mem_cons.mp h with rfl | h
    · simp
    · have hlt := ih h
      omega

/-- The tokens of a line come from left to right. -/
theorem pairwise_lineTokens (n col : Nat) (cs : List Char) :
    (lineTokens n col cs).Pairwise fun a b => a.col < b.col := by
  fun_induction lineTokens n col cs with
  | case1 => exact .nil
  | case2 _ _ ih => exact ih
  | case3 col c cs hc ih =>
    refine .cons (fun tok htok => ?_) ih
    obtain ⟨tail, htail⟩ := exists_spelling_lexeme c cs
    have hle := col_le_of_mem htok
    have hlength := congrArg List.length htail
    simp only [String.length_toList, List.length_cons] at hlength
    show col < tok.col
    omega

theorem tidy_of_mem (hcr : '\r' ∉ cs) (hlf : '\n' ∉ cs) (h : tok ∈ lineTokens n col cs) :
    tok.kind.Tidy := by
  fun_induction lineTokens n col cs with
  | case1 => simp at h
  | case2 col _ ih => exact ih (by simp_all) (by simp_all) h
  | case3 col c cs hc ih =>
    rcases List.mem_cons.mp h with rfl | h
    · exact tidy_lexeme hc hcr hlf
    · rw [← spelling_lexeme c cs, List.mem_append, not_or] at hcr hlf
      exact ih hcr.2 hlf.2 h

theorem countP_newline_lineTokens (h : lineTokens n col cs = xs ++ ys) :
    xs.countP (·.kind = .newline) = 0 := by
  rw [List.countP_eq_zero]
  intro tok htok
  have hmem : tok ∈ lineTokens n col cs := h ▸ List.mem_append_left ys htok
  simpa using (line_lineTokens n col cs).kind_ne_newline tok hmem

/-- Each line has one newline. -/
theorem countP_newline_cons (n : Nat) (cs : List Char) (toks : List Token) :
    (lineTokens n 1 cs ++ newlineAfter n cs :: toks).countP (·.kind = .newline) =
      toks.countP (·.kind = .newline) + 1 := by
  have hnone : (lineTokens n 1 cs).countP (·.kind = .newline) = 0 :=
    countP_newline_lineTokens (List.append_nil _).symm
  have hone : (newlineAfter n cs).kind = .newline := rfl
  rw [List.countP_append, hnone, List.countP_cons_of_pos (by simp [hone]), Nat.zero_add]

/-- A token that takes the rest of its line is the last one there. -/
theorem eq_nil_of_lastsLine (h : lineTokens n col cs = xs ++ tok :: ys)
    (hlasts : tok.kind.lastsLine) : ys = [] := by
  fun_induction lineTokens n col cs generalizing xs with
  | case1 => simp at h
  | case2 _ _ ih => exact ih h
  | case3 col c cs hc ih =>
    cases xs with
    | nil =>
      obtain ⟨rfl, rfl⟩ := List.cons.inj h
      rw [lexeme_of_lastsLine hlasts, lineTokens]
    | cons x xs => exact ih (List.cons.inj h).2

end Lexer

/-! ### Lines one after the other -/

theorem append_cons_cases {α : Type} {ts rest xs ys : List α} {nl tok : α}
    (h : ts ++ nl :: rest = xs ++ tok :: ys) :
    (∃ zs, ts = xs ++ tok :: zs ∧ ys = zs ++ nl :: rest) ∨ (xs = ts ∧ tok = nl ∧ ys = rest) ∨
      ∃ zs, xs = ts ++ nl :: zs ∧ rest = zs ++ tok :: ys := by
  rcases List.append_eq_append_iff.mp h with ⟨zs, rfl, hzs⟩ | ⟨zs, rfl, hzs⟩
  · cases zs with
    | nil =>
      obtain ⟨rfl, rfl⟩ := List.cons.inj hzs
      exact .inr (.inl ⟨by simp, rfl, rfl⟩)
    | cons z zs =>
      obtain ⟨rfl, hrest⟩ := List.cons.inj hzs
      exact .inr (.inr ⟨zs, rfl, hrest⟩)
  · cases zs with
    | nil =>
      obtain ⟨rfl, rfl⟩ := List.cons.inj hzs
      exact .inr (.inl ⟨by simp, rfl, rfl⟩)
    | cons z zs =>
      obtain ⟨rfl, hrest⟩ := List.cons.inj hzs
      exact .inl ⟨zs, rfl, hrest⟩

namespace Lexer

/-- A token that takes the rest of its line has a newline behind it. -/
def Closed (toks : List Token) : Prop :=
  ∀ xs tok ys, toks = xs ++ tok :: ys → tok.kind.lastsLine →
    ∃ nl zs, ys = nl :: zs ∧ nl.kind = .newline

/-- Whole lines of tokens, the first of them with the number `n`. -/
structure Orderly (n : Nat) (toks : List Token) : Prop where
  last : ∀ tok ∈ toks.getLast?, tok.kind = .newline
  line : ∀ xs tok ys, toks = xs ++ tok :: ys → tok.line = n + xs.countP (·.kind = .newline)
  before : toks.Pairwise Token.Before
  tidy : ∀ tok ∈ toks, tok.kind.Tidy
  closed : Closed toks

namespace Orderly

variable {n : Nat} {cs : List Char} {toks : List Token}

theorem nil (n : Nat) : Orderly n [] :=
  ⟨by simp, by simp, .nil, by simp, by simp [Closed]⟩

theorem le_line (h : Orderly n toks) {tok : Token} (htok : tok ∈ toks) : n ≤ tok.line := by
  obtain ⟨xs, ys, htoks⟩ := List.append_of_mem htok
  rw [h.line xs tok ys htoks]
  omega

theorem line_cons (h : Orderly (n + 1) toks) (xs : List Token) (tok : Token) (ys : List Token)
    (hsplit : lineTokens n 1 cs ++ newlineAfter n cs :: toks = xs ++ tok :: ys) :
    tok.line = n + xs.countP (·.kind = .newline) := by
  rcases append_cons_cases hsplit with ⟨zs, hts, -⟩ | ⟨rfl, rfl, -⟩ | ⟨zs, rfl, hrest⟩
  · rw [countP_newline_lineTokens hts]
    exact (line_lineTokens n 1 cs).line_eq tok (by simp [hts])
  · rw [countP_newline_lineTokens (List.append_nil _).symm]
    rfl
  · rw [countP_newline_cons, h.line zs tok ys hrest]
    omega

theorem before_cons (h : Orderly (n + 1) toks) :
    (lineTokens n 1 cs ++ newlineAfter n cs :: toks).Pairwise Token.Before := by
  have hline := (line_lineTokens n 1 cs).line_eq
  have hbelow : ∀ tok ∈ toks, n < tok.line := fun tok htok => h.le_line htok
  rw [List.pairwise_append]
  refine ⟨?_, .cons (fun tok htok => .inl (hbelow tok htok)) h.before, ?_⟩
  · refine (pairwise_lineTokens n 1 cs).imp_of_mem ?_
    intro a b ha hb hlt
    exact .inr ⟨(hline a ha).trans (hline b hb).symm, hlt⟩
  · intro a ha b hb
    rcases List.mem_cons.mp hb with rfl | hb
    · refine .inr ⟨hline a ha, ?_⟩
      have hlt := col_lt_of_mem ha
      simp only [newlineAfter]
      omega
    · exact .inl (hline a ha ▸ hbelow b hb)

theorem closed_cons (h : Orderly (n + 1) toks) :
    Closed (lineTokens n 1 cs ++ newlineAfter n cs :: toks) := by
  intro xs tok ys hsplit hlasts
  rcases append_cons_cases hsplit with ⟨zs, hts, rfl⟩ | ⟨-, rfl, -⟩ | ⟨zs, -, hrest⟩
  · rw [eq_nil_of_lastsLine hts hlasts]
    exact ⟨newlineAfter n cs, toks, rfl, rfl⟩
  · cases hlasts
  · exact h.closed zs tok ys hrest hlasts

/-- One more line in front. -/
theorem cons (hcr : '\r' ∉ cs) (hlf : '\n' ∉ cs) (h : Orderly (n + 1) toks) :
    Orderly n (lineTokens n 1 cs ++ newlineAfter n cs :: toks) where
  last := by
    cases htoks : toks.getLast? with
    | none => simp [htoks, List.getLast?_cons, newlineAfter]
    | some tok =>
      have hlast := h.last tok htoks
      simpa [htoks, List.getLast?_cons] using hlast
  line := h.line_cons
  before := h.before_cons
  tidy := by
    intro tok htok
    rcases List.mem_append.mp htok with htok | htok
    · exact tidy_of_mem hcr hlf htok
    · rcases List.mem_cons.mp htok with rfl | htok
      · trivial
      · exact h.tidy tok htok
  closed := h.closed_cons

end Orderly

theorem orderly_closedLines (n : Nat) {lines : List (List Char)}
    (h : ∀ cs ∈ lines, '\r' ∉ cs ∧ '\n' ∉ cs) : Orderly n (closedLines n lines) := by
  induction lines generalizing n with
  | nil => exact .nil n
  | cons cs lines ih =>
    obtain ⟨⟨hcr, hlf⟩, hrest⟩ := List.forall_mem_cons.mp h
    exact .cons hcr hlf (ih (n + 1) hrest)

theorem countP_newline_closedLines (n : Nat) (lines : List (List Char)) :
    (closedLines n lines).countP (·.kind = .newline) = lines.length := by
  induction lines generalizing n with
  | nil => rfl
  | cons cs lines ih => rw [closedLines, countP_newline_cons, ih, List.length_cons]

theorem orderly_tokenize (source : String) : Orderly 1 (tokenize source) := by
  rw [tokenize_eq]
  exact orderly_closedLines 1 fun cs hcs => notMem_of_mem_sourceLines (mem_of_mem_keepLast hcs)

end Lexer

/-- What holds of the tokens of every text. There is a newline for each line, and the last token is
one; a token is on the line that the newlines before it make, and stands before all that follow; it
holds what it may hold; and behind one that takes the rest of its line comes a newline. -/
theorem tokenize_orderly (source : String) :
    (tokenize source).countP (·.kind = .newline) = (Text.segments source).length ∧
      (∀ tok ∈ (tokenize source).getLast?, tok.kind = .newline) ∧
      (∀ xs tok ys, tokenize source = xs ++ tok :: ys →
        tok.line = 1 + xs.countP (·.kind = .newline)) ∧
      (tokenize source).Pairwise Token.Before ∧
      (∀ tok ∈ tokenize source, tok.kind.Tidy) ∧
      ∀ xs tok ys, tokenize source = xs ++ tok :: ys → tok.kind.lastsLine →
        ∃ nl zs, ys = nl :: zs ∧ nl.kind = .newline := by
  have horderly := Lexer.orderly_tokenize source
  refine ⟨?_, horderly.last, horderly.line, horderly.before, horderly.tidy, horderly.closed⟩
  rw [tokenize_eq, Lexer.countP_newline_closedLines, Lexer.keepLast_sourceLines, List.length_map]

example : tokenize "NO\nP 'x\rL: ;y" =
    [⟨.word "NOP", 1, 1⟩, ⟨.character "'x", 1, 5⟩, ⟨.newline, 1, 7⟩,
      ⟨.label "L", 2, 1⟩, ⟨.comment "y", 2, 4⟩, ⟨.newline, 2, 6⟩] := by
  decide +kernel

/-! ### Texts one after the other -/

namespace Text

theorem length_splitAt (sep : Char) (cs : List Char) :
    (splitAt sep cs).length = cs.count sep + 1 := by
  fun_induction splitAt sep cs with
  | case1 => rfl
  | case2 cs ih => rw [List.length_cons, ih, List.count_cons_self]
  | case3 c cs hc hnil ih => exact absurd hnil (splitAt_ne_nil sep cs)
  | case4 c cs hc piece rest hcut ih =>
    rw [hcut, List.length_cons] at ih
    rw [List.length_cons, ih, List.count_cons_of_ne hc]

end Text

/-- The token, so many lines further down. -/
def Token.down (k : Nat) (tok : Token) : Token :=
  { tok with line := tok.line + k }

namespace Lexer

theorem length_sourceLines (source : String) :
    (sourceLines source).length = (source ++ "\r").toList.count '\r' := by
  rw [sourceLines, Text.length_splitAt, List.count_filter (by decide)]
  simp

theorem lineTokens_down (n k col : Nat) (cs : List Char) :
    lineTokens (n + k) col cs = (lineTokens n col cs).map (Token.down k) := by
  rw [lineTokens_renumber (n + k) n]
  refine List.map_congr_left fun tok htok => ?_
  rw [Token.down, (line_lineTokens n col cs).line_eq tok htok]

theorem closedLines_down (n k : Nat) (lines : List (List Char)) :
    closedLines (n + k) lines = (closedLines n lines).map (Token.down k) := by
  induction lines generalizing n with
  | nil => rfl
  | cons cs lines ih =>
    rw [closedLines, closedLines, lineTokens_down, Nat.add_right_comm, ih, List.map_append]
    rfl

end Lexer

/-- Behind a CR a text starts anew. -/
theorem tokenize_append (source more : String) :
    tokenize (source ++ "\r" ++ more) = Lexer.closedLines 1 (Lexer.sourceLines source) ++
      (tokenize more).map (Token.down ((source ++ "\r").toList.count '\r')) := by
  have hne : Lexer.sourceLines more ≠ [] := Text.splitAt_ne_nil '\r' _
  rw [tokenize_eq_tokensOfLines, Lexer.sourceLines_append, Lexer.tokensOfLines_append hne,
    Lexer.tokensOfLines_eq, Lexer.closedLines_down, ← tokenize_eq, Lexer.length_sourceLines]

theorem tokenize_filter (source : String) :
    tokenize (String.ofList (source.toList.filter (· ≠ '\n'))) = tokenize source := by
  rw [tokenize, tokenize, String.toList_ofList, Lexer.run_filter]

theorem tokenize_empty : tokenize "" = [] :=
  rfl

/-- The tokens behind a CR are those of the text behind it, with the lines counted on; and an LF
anywhere in a text makes no difference. -/
theorem tokenize_lines_apart (source : String) :
    (∀ more, tokenize (source ++ "\r" ++ more) = tokenize (source ++ "\r") ++
      (tokenize more).map (Token.down ((source ++ "\r").toList.count '\r'))) ∧
      tokenize (String.ofList (source.toList.filter (· ≠ '\n'))) = tokenize source := by
  refine ⟨fun more => ?_, tokenize_filter source⟩
  have hsource := tokenize_append source ""
  rw [String.append_empty, tokenize_empty, List.map_nil, List.append_nil] at hsource
  rw [tokenize_append, hsource]

end Asm8
