import Mathlib.Data.List.TakeWhile
import Asm8.Proofs.Segments
import Asm8.Report.Listing

/-!
The lexer loses nothing but LF and the spaces at the end of a line.

A token and the rest of its line are the line again, so that the tokens, each at its column, give back
the line up to its last token. What breaks off behind a token does not change it. So the text that a
listing shows has the tokens of its source, and only the newlines may come in another column:

    L:  DB  'A' ; x ␣␣ CR        source line, a comment keeps its spaces
    L:  DB  'A' ; x ␣␣           tokens at their columns
    JMP  L ␣␣␣ CR                source line
    JMP  L                       tokens at their columns

Where the last line has no token, a text that ends without a CR has no newline for it.
-/

namespace Asm8

/-! ### Tokens and the rest of their line -/

namespace Lexer

variable {c quote : Char} {cs cs' rest body w : List Char}

theorem exists_spelling_lexeme (c : Char) (cs : List Char) :
    ∃ tail, (lexeme c cs).1.spelling.toList = c :: tail := by
  have hsplit := spelling_lexeme c cs
  cases hspelling : (lexeme c cs).1.spelling.toList with
  | nil =>
    have hle := length_lexeme_le c cs
    rw [hspelling, List.nil_append] at hsplit
    rw [hsplit, List.length_cons] at hle
    omega
  | cons d tail =>
    rw [hspelling, List.cons_append] at hsplit
    rw [(List.cons.inj hsplit).1]
    exact ⟨tail, rfl⟩

/-! ### Lines that break off -/

theorem quoted_of_prefix (h : rest <+: (quoted quote cs).2)
    (hcs : quote :: cs' = (quoted quote cs).1.toList ++ rest) :
    quoted quote cs' = ((quoted quote cs).1, rest) := by
  by_cases hq : quote ∈ cs
  · obtain ⟨body, tail, rfl, hbody⟩ := List.eq_append_cons_of_mem hq
    rw [quoted_closed hbody] at hcs ⊢
    have hcs' : cs' = body ++ quote :: rest := by simpa using hcs
    rw [hcs', quoted_closed hbody]
  · rw [quoted_open hq] at h hcs
    have hrest : rest = [] := List.prefix_nil.mp h
    have hcs' : cs' = cs := by simpa [hrest] using hcs
    rw [hcs', hrest, quoted_open hq]

theorem word_of_prefix (h : rest <+: (word c cs).2)
    (hcs : c :: cs' = (word c cs).1.spelling.toList ++ rest) :
    word c cs' = ((word c cs).1, rest) := by
  obtain ⟨w, tail, hw, rfl | ⟨rfl, htail⟩⟩ := word_cases cs
  · rw [word_label hw] at hcs ⊢
    have hcs' : cs' = w ++ ':' :: rest := by simpa [Kind.spelling] using hcs
    rw [hcs', word_label hw]
  · rw [word_word hw htail] at h hcs ⊢
    have hcs' : cs' = w ++ rest := by simpa [Kind.spelling] using hcs
    have hhead : ∀ d ∈ rest.head?, breaksWord d ∧ d ≠ ':' := by
      intro d hd
      obtain ⟨more, rfl⟩ := h
      exact htail d (by simp [Option.mem_def.mp hd])
    rw [hcs', word_word hw hhead]

/-- A token is cut the same if its line breaks off somewhere behind it. -/
theorem lexeme_of_prefix (h : rest <+: (lexeme c cs).2)
    (hcs : c :: cs' = (lexeme c cs).1.spelling.toList ++ rest) :
    lexeme c cs' = ((lexeme c cs).1, rest) := by
  fun_cases lexeme c cs with
  | case5 =>
    have hrest : rest = [] := List.prefix_nil.mp h
    have hcs' : cs' = cs := by simpa [lexeme, Kind.spelling, hrest] using hcs
    rw [hrest, hcs']
    rfl
  | case6 => simp only [lexeme, quoted_of_prefix h hcs]
  | case7 => simp only [lexeme, quoted_of_prefix h hcs]
  | case8 =>
    have hword : ∀ ds, lexeme c ds = word c ds := by
      intro ds
      rw [lexeme] <;> assumption
    rw [hword] at h hcs ⊢
    exact word_of_prefix h hcs
  | _ =>
    have hcs' : cs' = rest := by simpa [lexeme, Kind.spelling] using hcs
    rw [hcs']
    rfl

end Lexer

/-! ### Tokens at their columns -/

namespace Listing

theorem tokenText_false (kind : Kind) : tokenText false kind = kind.spelling := by
  unfold tokenText
  split <;> simp

theorem lineTextFrom_cons_self (kind : Kind) (n col : Nat) (ts : List Token) :
    (lineTextFrom false col (⟨kind, n, col⟩ :: ts)).toList =
      kind.spelling.toList ++ (lineTextFrom false (col + kind.spelling.length) ts).toList := by
  simp [lineTextFrom, tokenText_false]

/-- One column earlier there is one space more. -/
theorem lineTextFrom_of_lt {col : Nat} {ts : List Token} (hne : ts ≠ [])
    (h : ∀ tok ∈ ts, col < tok.col) :
    (lineTextFrom false col ts).toList = ' ' :: (lineTextFrom false (col + 1) ts).toList := by
  cases ts with
  | nil => exact absurd rfl hne
  | cons tok ts =>
    have hlt := h tok List.mem_cons_self
    have hspaces : tok.col - col = (tok.col - (col + 1)) + 1 := by omega
    have hmax : max col tok.col = max (col + 1) tok.col := by omega
    simp [lineTextFrom, hspaces, hmax, List.replicate_succ]

end Listing

namespace Lexer

open Listing

theorem col_le_of_mem {n col : Nat} {cs : List Char} {tok : Token}
    (h : tok ∈ lineTokens n col cs) : col ≤ tok.col := by
  fun_induction lineTokens n col cs with
  | case1 => simp at h
  | case2 col cs ih =>
    have hle := ih h
    omega
  | case3 col c cs hspace ih =>
    rcases List.mem_cons.mp h with rfl | h
    · exact Nat.le_refl _
    · have hle := ih h
      omega

/-- The tokens of a line, each at its column, are the line up to some spaces at its end. -/
theorem exists_lineTextFrom (n col : Nat) (cs : List Char) :
    ∃ k, (lineTextFrom false col (lineTokens n col cs)).toList ++ List.replicate k ' ' = cs := by
  fun_induction lineTokens n col cs with
  | case1 => exact ⟨0, rfl⟩
  | case2 col cs ih =>
    obtain ⟨k, hk⟩ := ih
    by_cases hnil : lineTokens n (col + 1) cs = []
    · rw [hnil] at hk ⊢
      exact ⟨k + 1, congrArg (' ' :: ·) hk⟩
    · refine ⟨k, ?_⟩
      rw [lineTextFrom_of_lt hnil fun tok htok => col_le_of_mem htok, List.cons_append, hk]
  | case3 col c cs hspace ih =>
    obtain ⟨k, hk⟩ := ih
    refine ⟨k, ?_⟩
    rw [lineTextFrom_cons_self, List.append_assoc, hk, spelling_lexeme]

/-- The tokens of a line, each at its column, have the same tokens. -/
theorem lineTokens_lineTextFrom (n col : Nat) (cs : List Char) :
    lineTokens n col (lineTextFrom false col (lineTokens n col cs)).toList =
      lineTokens n col cs := by
  fun_induction lineTokens n col cs with
  | case1 => rw [lineTextFrom, String.toList_empty, lineTokens]
  | case2 col cs ih =>
    by_cases hnil : lineTokens n (col + 1) cs = []
    · rw [hnil, lineTextFrom, String.toList_empty, lineTokens]
    · rw [lineTextFrom_of_lt hnil fun tok htok => col_le_of_mem htok, lineTokens, if_pos rfl, ih]
  | case3 col c cs hspace ih =>
    obtain ⟨tail, htail⟩ := exists_spelling_lexeme c cs
    obtain ⟨k, hk⟩ :=
      exists_lineTextFrom n (col + (lexeme c cs).1.spelling.length) (lexeme c cs).2
    rw [lineTextFrom_cons_self]
    -- the text after the token is a beginning of the line's rest
    generalize (lineTextFrom false (col + (lexeme c cs).1.spelling.length) _).toList = text at ih hk ⊢
    have hsame : lexeme c (tail ++ text) = ((lexeme c cs).1, text) :=
      lexeme_of_prefix ⟨_, hk⟩ (by rw [htail]; rfl)
    rw [htail, List.cons_append, lineTokens, if_neg hspace, hsame, ih]

end Lexer

/-! ### Lines of tokens -/

/-- The token without the column, if it is a newline. -/
def Token.blurred (tok : Token) : Token :=
  if tok.kind = .newline then { tok with col := 0 } else tok

namespace Listing

open Lexer

/-- The lines that a listing shows of these tokens, without colours. -/
def plainLines (toks : List Token) : List String :=
  (tokenLines [] toks).map fun line => lineText false line.2

/-- A group of tokens lasts up to the next newline. -/
theorem tokenLines_append {ts : List Token} {nl : Token} (hts : ∀ tok ∈ ts, tok.kind ≠ .newline)
    (hnl : nl.kind = .newline) (group rest : List Token) :
    tokenLines group (ts ++ nl :: rest) = (nl.line, group ++ ts) :: tokenLines [] rest := by
  induction ts generalizing group with
  | nil =>
    rw [List.nil_append, tokenLines, if_pos hnl, List.append_nil]
  | cons tok ts ih =>
    rw [List.forall_mem_cons] at hts
    rw [List.cons_append, tokenLines, if_neg hts.1, ih hts.2, List.append_assoc,
      List.singleton_append]

theorem tokenLines_closedLines (n : Nat) (lines : List (List Char)) :
    tokenLines [] (closedLines n lines) =
      (List.range' n lines.length).zip (linesFrom n lines) := by
  induction lines generalizing n with
  | nil => rfl
  | cons cs lines ih =>
    have hline := (line_lineTokens n 1 cs).kind_ne_newline
    rw [closedLines, tokenLines_append hline rfl, ih, linesFrom_cons, List.length_cons,
      List.range'_succ, List.zip_cons_cons]
    rfl

theorem length_linesFrom (n : Nat) (lines : List (List Char)) :
    (linesFrom n lines).length = lines.length := by
  simp [linesFrom]

theorem plainLines_closedLines (n : Nat) (lines : List (List Char)) :
    plainLines (closedLines n lines) = (linesFrom n lines).map (lineText false) := by
  have hsnd : ((List.range' n lines.length).zip (linesFrom n lines)).map Prod.snd =
      linesFrom n lines :=
    List.map_snd_zip (by rw [length_linesFrom, List.length_range'])
  rw [plainLines, tokenLines_closedLines]
  conv_rhs => rw [← hsnd, List.map_map]
  rfl

/-- Each line that is shown is the line up to some spaces at its end. -/
theorem forall₂_plainLines (n : Nat) (lines : List (List Char)) :
    List.Forall₂ (fun text cs => ∃ k, text.toList ++ List.replicate k ' ' = cs)
      (plainLines (closedLines n lines)) lines := by
  rw [plainLines_closedLines]
  induction lines generalizing n with
  | nil => exact .nil
  | cons cs lines ih =>
    rw [linesFrom_cons]
    exact .cons (exists_lineTextFrom n 1 cs) (ih (n + 1))

/-- The lines that are shown have the tokens of the lines, with newlines in other columns. -/
theorem blurred_closedLines_plainLines (n : Nat) (lines : List (List Char)) :
    (closedLines n ((plainLines (closedLines n lines)).map String.toList)).map Token.blurred =
      (closedLines n lines).map Token.blurred := by
  rw [plainLines_closedLines]
  induction lines generalizing n with
  | nil => rfl
  | cons cs lines ih =>
    have hline : lineTokens n 1 (lineText false (lineTokens n 1 cs)).toList = lineTokens n 1 cs :=
      lineTokens_lineTextFrom n 1 cs
    rw [linesFrom_cons, List.map_cons, List.map_cons, closedLines, closedLines, hline,
      List.map_append, List.map_append, List.map_cons, List.map_cons, ih]
    rfl

theorem exists_of_mem_plainLines {source text : String} (h : text ∈ plainLines (tokenize source)) :
    ∃ n cs, cs ∈ sourceLines source ∧ text = lineText false (lineTokens n 1 cs) := by
  rw [tokenize_eq, plainLines_closedLines, linesFrom, List.map_map, List.mem_map] at h
  obtain ⟨⟨cs, n⟩, hmem, rfl⟩ := h
  exact ⟨n, cs, mem_of_mem_keepLast (List.fst_mem_of_mem_zipIdx hmem), rfl⟩

/-- A line that is shown is empty or has a token. -/
theorem hasInk_of_mem_plainLines {source text : String} (h : text ∈ plainLines (tokenize source)) :
    hasInk text.toList = decide (text ≠ "") := by
  obtain ⟨n, cs, -, rfl⟩ := exists_of_mem_plainLines h
  have hsame : lineTokens n 1 (lineText false (lineTokens n 1 cs)).toList = lineTokens n 1 cs :=
    lineTokens_lineTextFrom n 1 cs
  by_cases hnil : lineTokens n 1 cs = []
  · rw [hnil]
    rfl
  · have hne : lineText false (lineTokens n 1 cs) ≠ "" := by
      intro hempty
      rw [hempty, String.toList_empty, lineTokens] at hsame
      exact hnil hsame.symm
    rw [decide_eq_true hne, ← Bool.not_eq_false, ← lineTokens_eq_nil_iff (n := n), hsame]
    exact hnil

theorem notMem_of_mem_plainLines {source text : String} (h : text ∈ plainLines (tokenize source)) :
    '\r' ∉ text.toList ∧ '\n' ∉ text.toList := by
  obtain ⟨n, cs, hcs, rfl⟩ := exists_of_mem_plainLines h
  obtain ⟨k, hk⟩ := exists_lineTextFrom n 1 cs
  obtain ⟨hcr, hlf⟩ := notMem_of_mem_sourceLines hcs
  rw [← hk, List.mem_append, not_or] at hcr hlf
  exact ⟨hcr.1, hlf.1⟩

theorem blurred_plainLines (source : String) :
    (closedLines 1 ((plainLines (tokenize source)).map String.toList)).map Token.blurred =
      (tokenize source).map Token.blurred := by
  rw [tokenize_eq]
  exact blurred_closedLines_plainLines 1 _

end Listing

/-! ### Shown lines as a source text -/

open Listing

/-- With a CR after every line the shown lines have the tokens of the source. -/
theorem blurred_tokenize_join (source : String) :
    (tokenize (String.join ((plainLines (tokenize source)).map (· ++ "\r")))).map Token.blurred =
      (tokenize source).map Token.blurred := by
  have htext : (String.join ((plainLines (tokenize source)).map (· ++ "\r"))).toList =
      ((plainLines (tokenize source)).map String.toList).flatMap (· ++ ['\r']) ++ [] := by
    rw [String.toList_join, List.flatMap_map, List.flatMap_map, List.append_nil]
    simp
  have hlines : ∀ cs ∈ (plainLines (tokenize source)).map String.toList, '\r' ∉ cs ∧ '\n' ∉ cs := by
    rw [List.forall_mem_map]
    exact fun text => notMem_of_mem_plainLines
  rw [tokenize_of_toList rfl htext hlines (by simp)]
  exact blurred_plainLines source

theorem intercalate_concat {α : Type} (sep x : List α) (xs : List (List α)) :
    sep.intercalate (xs ++ [x]) = xs.flatMap (· ++ sep) ++ x := by
  induction xs with
  | nil => simp
  | cons y ys ih =>
    rw [List.cons_append, List.intercalate_cons_of_ne_nil (by simp), ih]
    simp

/-- With a CR between the lines they do so up to the newline of an empty last line. -/
theorem blurred_tokenize_intercalate (source : String) :
    (tokenize ("\r".intercalate (plainLines (tokenize source)))).map Token.blurred =
      (if (plainLines (tokenize source)).getLast? = some "" then (tokenize source).dropLast
        else tokenize source).map Token.blurred := by
  have hsame := blurred_plainLines source
  have hends : ∀ text ∈ plainLines (tokenize source), '\r' ∉ text.toList ∧ '\n' ∉ text.toList :=
    fun text => notMem_of_mem_plainLines
  have hink : ∀ text ∈ plainLines (tokenize source),
      Lexer.hasInk text.toList = decide (text ≠ "") :=
    fun text => hasInk_of_mem_plainLines
  generalize plainLines (tokenize source) = texts at *
  rcases List.eq_nil_or_concat' texts with rfl | ⟨init, text, rfl⟩
  · have hnone : tokenize ("\r".intercalate []) = Lexer.closedLines 1 [] := by decide +kernel
    rw [if_neg (by simp), ← hsame, hnone]
    rfl
  · have htext : ("\r".intercalate (init ++ [text])).toList =
        (init.map String.toList).flatMap (· ++ ['\r']) ++ text.toList := by
      rw [String.toList_intercalate, List.map_append, List.map_singleton, intercalate_concat]
      rfl
    have hinit : ∀ cs ∈ init.map String.toList, '\r' ∉ cs ∧ '\n' ∉ cs := by
      rw [List.forall_mem_map]
      exact fun text' htext' => hends text' (List.mem_append_left _ htext')
    have htoks := tokenize_of_toList rfl htext hinit (hends text (by simp))
    rw [hink text (by simp)] at htoks
    rw [List.map_append, List.map_singleton] at hsame
    rw [htoks, List.getLast?_concat]
    by_cases hempty : text = ""
    · -- the last line has nothing but its newline
      have hblank : Lexer.hasInk text.toList = false := by rw [hempty]; rfl
      rw [Lexer.closedLines_concat hblank, List.map_append] at hsame
      rw [if_neg (by simp [hempty]), if_pos (by rw [hempty]), List.map_dropLast, ← hsame]
      simp
    · rw [if_pos (by simp [hempty]), if_neg (by simp [hempty]), hsame]

/-- The lexer loses LF and the spaces at the end of lines only. The lines of the tokens of a text are
its segments, and each of them, shown without colours, is its segment up to LF and some spaces at its
end. The tokens of all these lines, with a CR after each of them, are those of the text again, apart
from the columns of newlines. With a CR between them only they are too, except that an empty last line
has no newline. -/
theorem tokenize_plainLines (source : String) :
    (tokenLines [] (tokenize source)).map Prod.fst =
      List.range' 1 (Text.segments source).length ∧
    List.Forall₂ (fun text segment =>
        ∃ k, text.toList ++ List.replicate k ' ' = segment.filter (· ≠ '\n'))
      (plainLines (tokenize source)) (Text.segments source) ∧
    (tokenize (String.join ((plainLines (tokenize source)).map (· ++ "\r")))).map Token.blurred =
      (tokenize source).map Token.blurred ∧
    (tokenize ("\r".intercalate (plainLines (tokenize source)))).map Token.blurred =
      (if (plainLines (tokenize source)).getLast? = some "" then (tokenize source).dropLast
        else tokenize source).map Token.blurred := by
  have hlines := Lexer.keepLast_sourceLines source
  refine ⟨?_, ?_, blurred_tokenize_join source, blurred_tokenize_intercalate source⟩
  · rw [tokenize_eq, hlines, tokenLines_closedLines, List.length_map]
    exact List.map_fst_zip (by rw [length_linesFrom, List.length_map, List.length_range'])
  · have hshown := forall₂_plainLines 1 (keepLast Lexer.hasInk (Lexer.sourceLines source))
    rwa [← tokenize_eq, hlines, List.forall₂_map_right_iff] at hshown

/-- A blank last line is shown as an empty one, which has no newline where no CR comes after it. -/
theorem newline_of_blank_line_lost :
    plainLines (tokenize "A\r\r") = ["A", ""] ∧
    (tokenize ("\r".intercalate (plainLines (tokenize "A\r\r")))).map Token.blurred ≠
      (tokenize "A\r\r").map Token.blurred := by
  decide +kernel

end Asm8
