import Mathlib.Data.List.TakeWhile
import Asm8.Source.Lexer
import Asm8.Text.Lines

/-!
The tokens of a source text, line by line.

The lexer carries a pending word, an open literal or an open comment from one character to the next.
None of them gets over a CR, and an LF changes nothing, wherever it comes. So the tokens are those of
the lines, which are cut at the CR and rid of the LF, and each token of a line can be cut off whole:

    space        ──▶ skipped
    : , [ ]      ──▶ a token each
    quote        ──▶ literal up to and with the next such quote, or up to the end of the line
    ;            ──▶ comment up to the end of the line
    other        ──▶ the longest word; with a colon right after it, a label
-/

namespace Asm8

namespace Text

theorem splitAt_ne_nil (sep : Char) : ∀ cs : List Char, splitAt sep cs ≠ []
  | [] => by simp [splitAt]
  | c :: cs => by
    unfold splitAt
    split
    · simp
    · split <;> simp

/-- The pieces on both sides of a separator are cut apart from each other. -/
theorem splitAt_append (sep : Char) (ys : List Char) : ∀ xs : List Char,
    splitAt sep (xs ++ sep :: ys) = splitAt sep xs ++ splitAt sep ys
  | [] => by simp [splitAt]
  | c :: xs => by
    rw [List.cons_append, splitAt, splitAt, splitAt_append sep ys xs]
    by_cases hc : c = sep
    · simp [hc]
    · rw [if_neg hc, if_neg hc]
      cases hxs : splitAt sep xs with
      | nil => exact absurd hxs (splitAt_ne_nil sep xs)
      | cons piece rest => rfl

theorem splitAt_of_notMem {sep : Char} {cs : List Char} (h : sep ∉ cs) : splitAt sep cs = [cs] := by
  induction cs with
  | nil => rfl
  | cons c cs ih =>
    rw [List.mem_cons, not_or] at h
    rw [splitAt, if_neg (Ne.symm h.1), ih h.2]

end Text

/-- What the lexer makes of a piece of a line: no newline, and literals with their quote in front. -/
def Kind.Lexed : Kind → Prop
  | .newline => False
  | .character raw => raw.toList.head? = some '\''
  | .string raw => raw.toList.head? = some '"'
  | _ => True

namespace Lexer

/-- The characters that a word cannot hold. -/
def breaksWord (c : Char) : Bool :=
  c = ' ' || c = ':' || c = ',' || c = '[' || c = ']' || c = '\'' || c = '"' || c = ';'

/-- A literal after its opening quote: its raw text, closed if the quote comes again, and the
rest of the line. -/
def quoted (quote : Char) (cs : List Char) : String × List Char :=
  let body := cs.takeWhile (· ≠ quote)
  match cs.dropWhile (· ≠ quote) with
  | [] => (String.ofList (quote :: body), [])
  | _ :: rest => (String.ofList (quote :: body ++ [quote]), rest)

/-- The longest word that starts with `c`, as a label if a colon follows it. -/
def word (c : Char) (cs : List Char) : Kind × List Char :=
  let w := String.ofList (c :: cs.takeWhile fun d => !breaksWord d)
  match cs.dropWhile fun d => !breaksWord d with
  | ':' :: rest => (.label w, rest)
  | rest => (.word w, rest)

/-- The token that starts with `c`, which is not a space, and the rest of the line after it. -/
def lexeme (c : Char) (cs : List Char) : Kind × List Char :=
  match c with
  | ':' => (.colon, cs)
  | ',' => (.comma, cs)
  | '[' => (.openBracket, cs)
  | ']' => (.closeBracket, cs)
  | ';' => (.comment (String.ofList cs), [])
  | '\'' => ((quoted c cs).1 |> .character, (quoted c cs).2)
  | '"' => ((quoted c cs).1 |> .string, (quoted c cs).2)
  | _ => word c cs

/-! ### Cutting shortens the line -/

theorem length_dropWhile_le {α : Type} (p : α → Bool) (l : List α) :
    (l.dropWhile p).length ≤ l.length :=
  (List.dropWhile_sublist p).length_le

theorem length_quoted_le (quote : Char) (cs : List Char) :
    (quoted quote cs).2.length ≤ cs.length := by
  have h := length_dropWhile_le (· ≠ quote) cs
  unfold quoted
  split
  · simp
  · next heq => rw [heq] at h; simp at h ⊢; omega

theorem length_word_le (c : Char) (cs : List Char) : (word c cs).2.length ≤ cs.length := by
  have h := length_dropWhile_le (fun d => !breaksWord d) cs
  unfold word
  split
  · next heq => rw [heq] at h; simp at h ⊢; omega
  · exact h

theorem length_lexeme_le (c : Char) (cs : List Char) : (lexeme c cs).2.length ≤ cs.length := by
  unfold lexeme
  split <;> simp [length_quoted_le, length_word_le]

/-! ### Lines -/

/-- The tokens of one line from a column on. -/
def lineTokens (line col : Nat) : List Char → List Token
  | [] => []
  | c :: cs =>
    if c = ' ' then lineTokens line (col + 1) cs
    else
      ⟨(lexeme c cs).1, line, col⟩ ::
        lineTokens line (col + (lexeme c cs).1.spelling.length) (lexeme c cs).2
termination_by cs => cs.length
decreasing_by
  · simp
  · have := length_lexeme_le c cs
    simp only [List.length_cons]
    omega

/-- The newline token at the end of a line. -/
def newlineAfter (line : Nat) (cs : List Char) : Token :=
  ⟨.newline, line, cs.length + 1⟩

/-- The tokens of consecutive lines, the first of them with the given number. -/
def tokensOfLines (line : Nat) : List (List Char) → List Token
  | [] => []
  | [last] =>
    match lineTokens line 1 last with
    | [] => []
    | ts => ts ++ [newlineAfter line last]
  | cs :: rest => lineTokens line 1 cs ++ newlineAfter line cs :: tokensOfLines (line + 1) rest

/-- The lines that the lexer sees: without LF, and cut at every CR. -/
def sourceLines (source : String) : List (List Char) :=
  Text.splitAt '\r' (source.toList.filter (· ≠ '\n'))

/-! ### Tokens and the rest of their line -/

variable {c quote : Char} {cs rest body w : List Char}

theorem decide_ne_of_notMem (h : quote ∉ body) : ∀ d ∈ body, decide (d ≠ quote) = true :=
  fun _ hd => decide_eq_true fun heq => h (heq ▸ hd)

/-- A literal that its quote closes. -/
theorem quoted_closed (h : quote ∉ body) (rest : List Char) :
    quoted quote (body ++ quote :: rest) = (String.ofList (quote :: body ++ [quote]), rest) := by
  have hbody := decide_ne_of_notMem h
  rw [quoted, List.takeWhile_append_of_pos hbody, List.dropWhile_append_of_pos hbody]
  simp

/-- A literal that lasts to the end of its line. -/
theorem quoted_open (h : quote ∉ body) :
    quoted quote body = (String.ofList (quote :: body), []) := by
  have hbody := decide_ne_of_notMem h
  rw [quoted, List.takeWhile_eq_self_iff.mpr hbody, List.dropWhile_eq_nil_iff.mpr hbody]

/-- A word with a colon right after it. -/
theorem word_label (h : ∀ d ∈ w, breaksWord d = false) (c : Char) (rest : List Char) :
    word c (w ++ ':' :: rest) = (.label (String.ofList (c :: w)), rest) := by
  have hw : ∀ d ∈ w, (!breaksWord d) = true := by simpa using h
  have hcolon : breaksWord ':' = true := rfl
  rw [word, List.takeWhile_append_of_pos hw, List.dropWhile_append_of_pos hw]
  simp [hcolon]

/-- A word with another end. -/
theorem word_word (h : ∀ d ∈ w, breaksWord d = false)
    (hrest : ∀ d ∈ rest.head?, breaksWord d ∧ d ≠ ':') (c : Char) :
    word c (w ++ rest) = (.word (String.ofList (c :: w)), rest) := by
  have hw : ∀ d ∈ w, (!breaksWord d) = true := by simpa using h
  rw [word, List.takeWhile_append_of_pos hw, List.dropWhile_append_of_pos hw]
  cases rest with
  | nil => simp
  | cons d tail =>
    obtain ⟨hbreaks, hcolon⟩ := hrest d rfl
    simp [hbreaks, hcolon]

theorem word_cases (cs : List Char) : ∃ w rest, (∀ d ∈ w, breaksWord d = false) ∧
    (cs = w ++ ':' :: rest ∨ cs = w ++ rest ∧ ∀ d ∈ rest.head?, breaksWord d ∧ d ≠ ':') := by
  have hcut := List.takeWhile_append_dropWhile (p := fun d => !breaksWord d) (l := cs)
  have hhead := List.head?_dropWhile_not (fun d => !breaksWord d) cs
  have hw : ∀ d ∈ cs.takeWhile (fun d => !breaksWord d), breaksWord d = false := by
    intro d hd
    simpa using List.mem_takeWhile_imp hd
  generalize cs.dropWhile (fun d => !breaksWord d) = rest at hcut hhead
  by_cases hcolon : rest.head? = some ':'
  · obtain ⟨tail, rfl⟩ := List.head?_eq_some_iff.mp hcolon
    exact ⟨_, tail, hw, .inl hcut.symm⟩
  · refine ⟨_, rest, hw, .inr ⟨hcut.symm, ?_⟩⟩
    intro d hd
    rw [Option.mem_def] at hd
    rw [hd] at hcolon hhead
    exact ⟨by simpa using hhead, fun heq => hcolon (by rw [heq])⟩

/-- Nothing is lost in a token and what follows it. -/
theorem spelling_lexeme (c : Char) (cs : List Char) :
    (lexeme c cs).1.spelling.toList ++ (lexeme c cs).2 = c :: cs := by
  have hquoted : ∀ q : Char, (quoted q cs).1.toList ++ (quoted q cs).2 = q :: cs := by
    intro q
    by_cases hq : q ∈ cs
    · obtain ⟨body, rest, rfl, hbody⟩ := List.eq_append_cons_of_mem hq
      simp [quoted_closed hbody]
    · simp [quoted_open hq]
  fun_cases lexeme c cs with
  | case6 => exact hquoted _
  | case7 => exact hquoted _
  | case8 =>
    obtain ⟨w, rest, hw, rfl | ⟨rfl, hrest⟩⟩ := word_cases cs
    · simp [word_label hw, Kind.spelling]
    · simp [word_word hw hrest, Kind.spelling]
  | _ => simp [Kind.spelling]

/-- The tokens of line `n` of a source text: a comment is the last of them. -/
inductive Line (n : Nat) : List Token → Prop
  | nil : Line n []
  | comment {body : String} {col : Nat} : Line n [⟨.comment body, n, col⟩]
  | cons {kind : Kind} {col : Nat} {ts : List Token} (hk : kind.Lexed)
    (hc : ∀ body, kind ≠ .comment body) (h : Line n ts) : Line n (⟨kind, n, col⟩ :: ts)

theorem lexed_lexeme (c : Char) (cs : List Char) : (lexeme c cs).1.Lexed := by
  have hquoted : ∀ q : Char, (quoted q cs).1.toList.head? = some q := by
    intro q
    unfold quoted
    dsimp only
    split <;> simp
  unfold lexeme
  split
  · trivial
  · trivial
  · trivial
  · trivial
  · trivial
  · exact hquoted _
  · exact hquoted _
  · unfold word
    dsimp only
    split <;> trivial

/-- Nothing is left of the line after a comment. -/
theorem lexeme_comment {c : Char} {cs : List Char} {body : String}
    (h : (lexeme c cs).1 = .comment body) : (lexeme c cs).2 = [] := by
  unfold lexeme at h ⊢
  split at h <;> simp_all
  unfold word at h
  dsimp only at h
  split at h <;> simp at h

theorem line_lineTokens (n col : Nat) (cs : List Char) : Line n (lineTokens n col cs) := by
  fun_induction lineTokens n col cs with
  | case1 => exact .nil
  | case2 col cs ih => exact ih
  | case3 col c cs hspace ih =>
    by_cases hc : ∃ body, (lexeme c cs).1 = .comment body
    · obtain ⟨body, hbody⟩ := hc
      rw [lexeme_comment hbody, hbody, lineTokens]
      exact .comment
    · exact .cons (lexed_lexeme c cs) (fun body h => hc ⟨body, h⟩) ih

theorem Line.tail {n : Nat} {tok : Token} {ts : List Token} (h : Line n (tok :: ts)) :
    Line n ts := by
  cases h with
  | comment => exact .nil
  | cons _ _ h => exact h

theorem Line.of_append {n : Nat} : ∀ {xs ys : List Token}, Line n (xs ++ ys) → Line n ys
  | [], _, h => h
  | _ :: _, _, h => h.tail.of_append

/-- A line and its newline come before the other lines, unless the line is the last one and has no
tokens. -/
theorem tokensOfLines_cons (n : Nat) (cs : List Char) (lines : List (List Char))
    (h : lineTokens n 1 cs ≠ [] ∨ lines ≠ []) :
    tokensOfLines n (cs :: lines) =
      lineTokens n 1 cs ++ newlineAfter n cs :: tokensOfLines (n + 1) lines := by
  cases lines with
  | cons => rfl
  | nil =>
    rw [tokensOfLines, tokensOfLines]
    split
    · next hnil => simp [hnil] at h
    · rfl

/-! ### Line ends -/

variable {l : Lexer}

/-- An LF changes nothing, wherever the lexer is. -/
theorem step_lf (l : Lexer) : l.step '\n' = l := by
  cases h : l.mode <;> simp [step, h, plain, inLiteral, inComment]

@[simp] theorem run_cons (l : Lexer) (c : Char) (cs : List Char) :
    l.run (c :: cs) = (l.step c).run cs :=
  rfl

theorem run_append (l : Lexer) (xs ys : List Char) : l.run (xs ++ ys) = (l.run xs).run ys :=
  List.foldl_append

theorem run_filter (l : Lexer) (cs : List Char) : l.run (cs.filter (· ≠ '\n')) = l.run cs := by
  induction cs generalizing l with
  | nil => rfl
  | cons c cs ih =>
    by_cases hc : c = '\n'
    · rw [List.filter_cons_of_neg (by simpa using hc), ih, run_cons, hc, step_lf]
    · rw [List.filter_cons_of_pos (by simpa using hc), run_cons, run_cons, ih]

/-- Nothing is left open: no word is pending, and no literal or comment goes on. -/
structure AtRest (l : Lexer) : Prop where
  mode : l.mode = .plain
  pending : l.pending = []

/-- A word is pending among words and marks only. -/
def Sound (l : Lexer) : Prop :=
  l.mode ≠ .plain → l.pending = []

theorem flush_of_pending (h : l.pending = []) : l.flush = l :=
  if_pos h

@[simp] theorem flush_line (l : Lexer) : l.flush.line = l.line := by
  unfold flush
  split <;> rfl

@[simp] theorem flush_col (l : Lexer) : l.flush.col = l.col := by
  unfold flush
  split <;> rfl

@[simp] theorem flush_mode (l : Lexer) : l.flush.mode = l.mode := by
  unfold flush
  split <;> rfl

@[simp] theorem flush_pending (l : Lexer) : l.flush.pending = [] := by
  unfold flush
  split
  · assumption
  · rfl

@[simp] theorem close_line (l : Lexer) : l.close.line = l.line := by
  unfold close
  split <;> simp [push]

@[simp] theorem close_col (l : Lexer) : l.close.col = l.col := by
  unfold close
  split <;> simp [push]

theorem atRest_close (l : Lexer) : l.close.AtRest := by
  unfold close
  split
  · next h => exact ⟨by rw [flush_mode, h], flush_pending l⟩
  all_goals exact ⟨flush_mode _, flush_pending _⟩

theorem AtRest.close_eq (h : l.AtRest) : l.close = l := by
  unfold close
  rw [h.mode]
  exact flush_of_pending h.pending

/-- One character keeps the lexer sound. -/
theorem Sound.step (h : l.Sound) (c : Char) : (l.step c).Sound := by
  unfold Lexer.step
  split
  · next hmode =>
    unfold plain
    split <;> simp [Sound, forth, newline, push, single, colon, extend, hmode]
    split <;> simp
  · next quote start raw hmode =>
    have hpending : l.pending = [] := h (by simp [hmode])
    unfold inLiteral
    split
    · simp [Sound, newline, push]
    · exact h
    · split <;> simp [Sound, forth, push, hpending]
  · next start body hmode =>
    have hpending : l.pending = [] := h (by simp [hmode])
    unfold inComment
    split <;> simp [Sound, plain, newline, push, forth, hpending]

theorem Sound.run (h : l.Sound) (cs : List Char) : (l.run cs).Sound := by
  induction cs generalizing l with
  | nil => exact h
  | cons c cs ih => exact ih (h.step c)

/-- A CR ends whatever is open, and nothing of it gets into the next line. -/
theorem step_return (h : l.Sound) : l.step '\r' = l.close.newline := by
  unfold step close
  split
  · rfl
  · next quote start raw hmode =>
    have hpending : l.pending = [] := h (by simp [hmode])
    rw [flush_of_pending]
    · rfl
    · exact hpending
  · rfl

/-! ### One token -/

/-- The lexer behind a token that starts where it was. -/
def cut (l : Lexer) (start : Nat) (kind : Kind) : Lexer :=
  { l.push kind l.col with start, col := l.col + kind.spelling.length }

theorem AtRest.cut (h : l.AtRest) (start : Nat) (kind : Kind) : (l.cut start kind).AtRest :=
  ⟨h.mode, h.pending⟩

/-- A character that belongs to a line. -/
def Inline (c : Char) : Prop :=
  c ≠ '\r' ∧ c ≠ '\n'

theorem inline_of_notMem (hcr : '\r' ∉ cs) (hlf : '\n' ∉ cs) : ∀ c ∈ cs, Inline c :=
  fun _ hc => ⟨fun heq => hcr (heq ▸ hc), fun heq => hlf (heq ▸ hc)⟩

theorem step_of_breaksWord (hmode : l.mode = .plain) (hc : Inline c)
    (h : breaksWord c = false) : l.step c = l.extend c := by
  simp only [breaksWord, Bool.or_eq_false_iff, decide_eq_false_iff_not] at h
  simp only [step, hmode]
  unfold plain
  split <;> simp_all [Inline]

/-- The rest of a word. -/
theorem run_word {w : List Char} (hmode : l.mode = .plain) (hne : l.pending ≠ [])
    (hw : ∀ c ∈ w, Inline c ∧ breaksWord c = false) :
    l.run w = { l with pending := w.reverse ++ l.pending, col := l.col + w.length } := by
  induction w generalizing l with
  | nil => rfl
  | cons c w ih =>
    have hc := hw c List.mem_cons_self
    rw [run_cons, step_of_breaksWord hmode hc.1 hc.2,
      ih (l := l.extend c) hmode (List.cons_ne_nil c _) fun d hd => hw d (List.mem_cons_of_mem c hd)]
    simp [extend, forth, hne, Nat.add_assoc, Nat.add_comm 1]

theorem step_literal {start : Nat} {raw : List Char} (hmode : l.mode = .literal quote start raw)
    (hc : Inline c) :
    l.step c =
      if c = quote then { l.push (literal quote (c :: raw)) start with mode := .plain }.forth
      else { l with mode := .literal quote start (c :: raw) }.forth := by
  simp only [step, hmode]
  unfold inLiteral
  split
  · exact absurd rfl hc.1
  · exact absurd rfl hc.2
  · rfl

/-- The rest of a literal before the quote. -/
theorem run_literal {start : Nat} {raw : List Char} (hmode : l.mode = .literal quote start raw)
    (hbody : ∀ c ∈ body, Inline c) (hquote : quote ∉ body) :
    l.run body =
      { l with mode := .literal quote start (body.reverse ++ raw), col := l.col + body.length } := by
  induction body generalizing l raw with
  | nil => simp [run, ← hmode]
  | cons c body ih =>
    obtain ⟨hc, hrest⟩ := List.ne_and_not_mem_of_not_mem_cons hquote
    rw [run_cons, step_literal hmode (hbody c List.mem_cons_self), if_neg (Ne.symm hc),
      ih rfl (fun d hd => hbody d (List.mem_cons_of_mem c hd)) hrest]
    simp [forth, Nat.add_assoc, Nat.add_comm 1]

/-- The rest of a comment. -/
theorem run_comment {start : Nat} {body cs : List Char} (hmode : l.mode = .comment start body)
    (hcs : ∀ c ∈ cs, Inline c) :
    l.run cs = { l with mode := .comment start (cs.reverse ++ body), col := l.col + cs.length } := by
  induction cs generalizing l body with
  | nil => simp [run, ← hmode]
  | cons c cs ih =>
    obtain ⟨hcr, hlf⟩ := hcs c List.mem_cons_self
    have hstep : l.step c = { l with mode := .comment start (c :: body) }.forth := by
      simp only [step, hmode]
      unfold inComment
      split
      · exact absurd rfl hcr
      · exact absurd rfl hlf
      · rfl
    rw [run_cons, hstep, ih rfl fun d hd => hcs d (List.mem_cons_of_mem c hd)]
    simp [forth, Nat.add_assoc, Nat.add_comm 1]

theorem length_literal (quote : Char) (raw : List Char) :
    (literal quote raw).spelling.length = raw.length := by
  unfold literal
  split <;> simp [Kind.spelling]

/-- A literal is cut off at its quote, or at the end of the line. -/
theorem AtRest.exists_cut_literal (h : l.AtRest) (hline : ∀ d ∈ quote :: cs, Inline d)
    (hstep : l.step quote = { l with mode := .literal quote l.col [quote] }.forth) :
    ∃ start, (l.run (quote :: cs)).close.tokens =
      ((l.cut start (literal quote (quoted quote cs).1.toList.reverse)).run
        (quoted quote cs).2).close.tokens := by
  refine ⟨l.start, ?_⟩
  rw [run_cons, hstep]
  by_cases hq : quote ∈ cs
  · obtain ⟨body, rest, rfl, hbody⟩ := List.eq_append_cons_of_mem hq
    rw [quoted_closed hbody, run_append, run_literal rfl (fun d hd => hline d (by simp [hd])) hbody,
      run_cons, step_literal rfl (hline quote (by simp)), if_pos rfl]
    congr 3
    simp [Lexer.cut, forth, push, h.mode, length_literal]
    omega
  · rw [quoted_open hq, run_literal rfl (fun d hd => hline d (by simp [hd])) hq]
    simp [Lexer.cut, forth, push, h.mode, length_literal, close, run, flush_of_pending, h.pending]

/-- What ends a word comes behind its token. -/
theorem step_flush (hmode : l.mode = .plain) (hbreaks : breaksWord c) (hcolon : c ≠ ':') :
    l.step c = l.flush.step c := by
  have hflush : l.flush.flush = l.flush := flush_of_pending (flush_pending l)
  simp only [breaksWord, Bool.or_eq_true, decide_eq_true_eq] at hbreaks
  simp only [step, flush_mode, hmode]
  rcases hbreaks with ((((((rfl | rfl) | rfl) | rfl) | rfl) | rfl) | rfl) | rfl <;>
    simp_all [plain, single]

/-- A word is cut off at the first character that it cannot hold. -/
theorem AtRest.exists_cut_word (h : l.AtRest) (hline : ∀ d ∈ c :: cs, Inline d)
    (hc : breaksWord c = false) :
    ∃ start, (l.run (c :: cs)).close.tokens =
      ((l.cut start (word c cs).1).run (word c cs).2).close.tokens := by
  refine ⟨l.col, ?_⟩
  obtain ⟨w, rest, hw, hcs⟩ := word_cases cs
  have hmem : ∀ d ∈ w, Inline d ∧ breaksWord d = false := by
    intro d hd
    refine ⟨hline d (List.mem_cons_of_mem c ?_), hw d hd⟩
    obtain rfl | ⟨rfl, -⟩ := hcs <;> simp [hd]
  have hrun : ∀ tail, l.run (c :: (w ++ tail)) =
      ({ l with start := l.col, pending := (c :: w).reverse, col := l.col + (w.length + 1) } : Lexer).run
        tail := by
    intro tail
    rw [run_cons, step_of_breaksWord h.mode (hline c List.mem_cons_self) hc, run_append,
      run_word (l := l.extend c) h.mode (List.cons_ne_nil c _) hmem]
    simp [extend, forth, h.pending, Nat.add_assoc, Nat.add_comm 1]
  obtain rfl | ⟨rfl, hrest⟩ := hcs
  · rw [hrun, word_label hw, run_cons]
    congr 3
    have hlength : ":".length = 1 := rfl
    simp [step, plain, colon, h.mode, h.pending, Lexer.cut, forth, push, Kind.spelling, hlength]
    omega
  · rw [hrun, word_word hw hrest]
    cases rest with
    | nil =>
      simp [run, close, h.mode, flush, Lexer.cut, push, h.pending]
    | cons d rest =>
      obtain ⟨hbreaks, hcolon⟩ := hrest d rfl
      rw [run_cons, run_cons, step_flush ?_ hbreaks hcolon]
      · congr 3
        simp [flush, push, Lexer.cut, h.pending, Kind.spelling, Nat.add_comm 1]
      · exact h.mode

/-- A token is cut off whole: behind it the lexer is at rest, or would be if the text ended there. -/
theorem AtRest.exists_cut (h : l.AtRest) (hspace : c ≠ ' ') (hline : ∀ d ∈ c :: cs, Inline d) :
    ∃ start, (l.run (c :: cs)).close.tokens =
      ((l.cut start (lexeme c cs).1).run (lexeme c cs).2).close.tokens := by
  have hflush := flush_of_pending h.pending
  have hcs : ∀ d ∈ cs, Inline d := fun d hd => hline d (List.mem_cons_of_mem c hd)
  have hmark : ∀ kind : Kind, kind.spelling.length = 1 → l.step c = (l.push kind l.col).forth →
      ∃ start, (l.run (c :: cs)).close.tokens = ((l.cut start kind).run cs).close.tokens := by
    intro kind hlength hstep
    exact ⟨l.start, by rw [run_cons, hstep, Lexer.cut, hlength]; rfl⟩
  unfold lexeme
  split
  · exact hmark .colon rfl (by simp [step, h.mode, plain, colon, h.pending])
  · exact hmark .comma rfl (by simp [step, h.mode, plain, single, hflush])
  · exact hmark .openBracket rfl (by simp [step, h.mode, plain, single, hflush])
  · exact hmark .closeBracket rfl (by simp [step, h.mode, plain, single, hflush])
  · refine ⟨l.start, ?_⟩
    have hstep : l.step ';' = { l with mode := .comment l.col [] }.forth := by
      simp [step, h.mode, plain, hflush]
    rw [run_cons, hstep, run_comment rfl hcs]
    simp [close, run, Lexer.cut, push, forth, flush_of_pending, h.mode, h.pending]
  · have hcut := h.exists_cut_literal hline (by simp [step, h.mode, plain, hflush])
    simpa [literal] using hcut
  · have hcut := h.exists_cut_literal hline (by simp [step, h.mode, plain, hflush])
    simpa [literal] using hcut
  · refine h.exists_cut_word hline ?_
    simp_all [breaksWord]

/-! ### Lines -/

/-- The tokens of one line. -/
theorem AtRest.tokens_close_run (h : l.AtRest) (hcs : ∀ c ∈ cs, Inline c) :
    (l.run cs).close.tokens = (lineTokens l.line l.col cs).reverse ++ l.tokens := by
  generalize hline : l.line = line
  generalize hcol : l.col = col
  fun_induction lineTokens line col cs generalizing l with
  | case1 => rw [run, List.foldl_nil, h.close_eq]; rfl
  | case2 col cs ih =>
    have hstep : l.step ' ' = l.forth := by
      simp [step, h.mode, plain, flush_of_pending h.pending]
    rw [run_cons, hstep]
    exact ih (l := l.forth) ⟨h.mode, h.pending⟩ (fun d hd => hcs d (List.mem_cons_of_mem _ hd)) hline
      (congrArg (· + 1) hcol)
  | case3 col c cs hspace ih =>
    obtain ⟨start, hcut⟩ := h.exists_cut hspace hcs
    have hrest : ∀ d ∈ (lexeme c cs).2, Inline d := by
      intro d hd
      refine hcs d ?_
      rw [← spelling_lexeme c cs]
      exact List.mem_append_right _ hd
    rw [hcut, ih (h.cut start _) hrest hline (congrArg (· + _) hcol)]
    simp [Lexer.cut, push, hline, hcol]

theorem step_line_col (hc : Inline c) : (l.step c).line = l.line ∧ (l.step c).col = l.col + 1 := by
  unfold step
  split
  · unfold plain
    split <;> simp_all [Inline, forth, single, push, colon, extend]
    split <;> simp
  · unfold inLiteral
    split <;> simp_all [Inline, forth]
    split <;> simp [push]
  · unfold inComment
    split <;> simp_all [Inline, forth]

theorem run_line_col (hcs : ∀ c ∈ cs, Inline c) :
    (l.run cs).line = l.line ∧ (l.run cs).col = l.col + cs.length := by
  induction cs generalizing l with
  | nil => exact ⟨rfl, rfl⟩
  | cons c cs ih =>
    obtain ⟨hline, hcol⟩ := step_line_col (l := l) (hcs c List.mem_cons_self)
    obtain ⟨ihline, ihcol⟩ := ih (l := l.step c) fun d hd => hcs d (List.mem_cons_of_mem c hd)
    rw [run_cons, ihline, ihcol, hline, hcol, List.length_cons, Nat.add_right_comm, Nat.add_assoc]
    exact ⟨rfl, rfl⟩

theorem last_ne_newline {n col : Nat} {ts : List Token} {last : Token}
    (h : lineTokens n col cs = ts ++ [last]) : last.kind ≠ .newline := by
  have hline := line_lineTokens n col cs
  rw [h] at hline
  cases hline.of_append with
  | comment => simp
  | cons hk =>
    rintro rfl
    exact hk

/-- The last line has its newline only if it has tokens. -/
theorem AtRest.finish_run_line (h : l.AtRest) (hcol : l.col = 1)
    (hlast : ∀ tok ∈ l.tokens.head?, tok.kind = .newline) (hcs : ∀ c ∈ cs, Inline c) :
    (l.run cs).finish = l.tokens.reverse ++ tokensOfLines l.line [cs] := by
  obtain ⟨hline', hcol'⟩ := run_line_col (l := l) hcs
  rw [finish, h.tokens_close_run hcs, hline', hcol', hcol, tokensOfLines]
  rcases List.eq_nil_or_concat (lineTokens l.line 1 cs) with hts | ⟨ts, last, hts⟩
  · rw [hts]
    cases htokens : l.tokens with
    | nil => rfl
    | cons tok tokens => simp [hlast tok (by rw [htokens]; rfl)]
  · rw [List.concat_eq_append] at hts
    have hne : last.kind ≠ .newline := last_ne_newline hts
    simp [hts, hne, newlineAfter, Nat.add_comm 1]

/-- The tokens of lines with a CR between them. -/
theorem AtRest.finish_run (h : l.AtRest) (hcol : l.col = 1)
    (hlast : ∀ tok ∈ l.tokens.head?, tok.kind = .newline) (hlf : '\n' ∉ cs) :
    (l.run cs).finish = l.tokens.reverse ++ tokensOfLines l.line (Text.splitAt '\r' cs) := by
  induction hn : cs.length using Nat.strong_induction_on generalizing l cs with
  | _ n ih =>
    by_cases hcr : '\r' ∈ cs
    · obtain ⟨xs, ys, rfl, hxs⟩ := List.eq_append_cons_of_mem hcr
      have hinline : ∀ c ∈ xs, Inline c := inline_of_notMem hxs (by simp_all)
      obtain ⟨hline', hcol'⟩ := run_line_col (l := l) hinline
      have hsound : (l.run xs).Sound := Sound.run (fun hmode => absurd h.mode hmode) xs
      have hrest : (l.run xs).close.newline.AtRest :=
        ⟨(atRest_close (l.run xs)).mode, (atRest_close (l.run xs)).pending⟩
      have hlf' : '\n' ∉ ys := by simp_all
      have hys := ih ys.length (by simp [← hn]; omega) hrest rfl (by simp [newline, push]) hlf' rfl
      rw [run_append, run_cons, step_return hsound, hys, Text.splitAt_append,
        Text.splitAt_of_notMem hxs, List.singleton_append,
        tokensOfLines_cons _ _ _ (.inr (Text.splitAt_ne_nil '\r' ys))]
      simp [newline, push, h.tokens_close_run hinline, hline', hcol', hcol, newlineAfter,
        Nat.add_comm 1]
    · rw [Text.splitAt_of_notMem hcr]
      exact h.finish_run_line hcol hlast (inline_of_notMem hcr hlf)

end Lexer

/-- The tokens of a text are those of its lines. -/
theorem tokenize_eq_tokensOfLines (source : String) :
    tokenize source = Lexer.tokensOfLines 1 (Lexer.sourceLines source) := by
  rw [tokenize, ← Lexer.run_filter,
    Lexer.AtRest.finish_run ⟨rfl, rfl⟩ rfl (by simp) (by simp)]
  rfl

end Asm8
