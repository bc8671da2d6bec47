import Asm8.Proofs.Remainder

/-!
The segments of a source text and their tokens.

A source text is cut into segments at every CR. What comes after the last CR counts only if it has a
token, that is, if anything but spaces and LF stands there:

    A CR B CR C     three lines
    A CR B CR       two lines, both with a newline token
    A CR B          two lines, both with a newline token

So the tokens of a text are those of its segments, each segment followed by its newline.
-/

namespace Asm8

/-- The list, its last element only if it passes the test. -/
def keepLast {α : Type} (p : α → Bool) (xs : List α) : List α :=
  xs.dropLast ++ xs.getLast?.toList.filter p

section KeepLast

variable {α β : Type} {p : α → Bool}

theorem keepLast_concat (p : α → Bool) (xs : List α) (x : α) :
    keepLast p (xs ++ [x]) = if p x then xs ++ [x] else xs := by
  by_cases h : p x <;> simp [keepLast, h]

theorem keepLast_cons {xs : List α} (hne : xs ≠ []) (x : α) :
    keepLast p (x :: xs) = x :: keepLast p xs := by
  obtain ⟨ys, y, rfl⟩ := (List.eq_nil_or_concat' xs).resolve_left hne
  rw [← List.cons_append, keepLast_concat, keepLast_concat]
  split <;> rfl

theorem keepLast_map (f : α → β) (q : β → Bool) (xs : List α) :
    keepLast q (xs.map f) = (keepLast (fun x => q (f x)) xs).map f := by
  rcases List.eq_nil_or_concat' xs with rfl | ⟨ys, y, rfl⟩
  · rfl
  · rw [List.map_append, List.map_singleton, keepLast_concat, keepLast_concat]
    split <;> simp

theorem mem_of_mem_keepLast {xs : List α} {x : α} (h : x ∈ keepLast p xs) : x ∈ xs := by
  rcases List.eq_nil_or_concat' xs with rfl | ⟨ys, y, rfl⟩
  · exact h
  · rw [keepLast_concat] at h
    split at h
    · exact h
    · exact List.mem_append_left _ h

end KeepLast

/-! ### Pieces between separators -/

namespace Text

variable {sep : Char}

/-- Pieces without separators are found again. -/
theorem splitAt_flatMap {pieces : List (List Char)} {last : List Char}
    (h : ∀ piece ∈ pieces, sep ∉ piece) (hlast : sep ∉ last) :
    splitAt sep (pieces.flatMap (· ++ [sep]) ++ last) = pieces ++ [last] := by
  induction pieces with
  | nil => exact splitAt_of_notMem hlast
  | cons piece pieces ih =>
    have hrest := ih fun piece' hmem => h piece' (List.mem_cons_of_mem _ hmem)
    rw [List.flatMap_cons, List.append_assoc, List.append_assoc, List.singleton_append,
      splitAt_append, hrest, splitAt_of_notMem (h piece List.mem_cons_self)]
    rfl

theorem notMem_of_mem_splitAt {cs : List Char} :
    ∀ piece ∈ splitAt sep cs, sep ∉ piece := by
  induction cs with
  | nil => simp [splitAt]
  | cons c cs ih =>
    rw [splitAt]
    split
    · simpa using ih
    next hc =>
    cases hcs : splitAt sep cs with
    | nil => exact absurd hcs (splitAt_ne_nil sep cs)
    | cons first rest =>
      rw [hcs, List.forall_mem_cons] at ih
      rw [List.forall_mem_cons]
      refine ⟨?_, ih.2⟩
      rw [List.mem_cons, not_or]
      exact ⟨Ne.symm hc, ih.1⟩

/-- Other characters can be left out before or after the cut. -/
theorem splitAt_filter {q : Char → Bool} (hq : q sep) (cs : List Char) :
    splitAt sep (cs.filter q) = (splitAt sep cs).map (List.filter q) := by
  induction cs with
  | nil => rfl
  | cons c cs ih =>
    by_cases hc : c = sep
    · subst hc
      rw [List.filter_cons_of_pos hq, splitAt, if_pos rfl, splitAt, if_pos rfl, ih]
      rfl
    · rw [splitAt, if_neg hc]
      cases hcs : splitAt sep cs with
      | nil => exact absurd hcs (splitAt_ne_nil sep cs)
      | cons first rest =>
        rw [hcs] at ih
        by_cases hkeep : q c
        · rw [List.filter_cons_of_pos hkeep, splitAt, if_neg hc, ih]
          simp [hkeep]
        · rw [List.filter_cons_of_neg hkeep, ih]
          simp [hkeep]

/-- The segments of a source text between CRs. What follows the last CR counts only if it is more than
spaces and LF. -/
def segments (source : String) : List (List Char) :=
  keepLast (fun segment => segment.any fun c => c ≠ '\n' && c ≠ ' ') (splitAt '\r' source.toList)

end Text

/-! ### Tokens of segments -/

namespace Lexer

/-- Whether a line is more than spaces. -/
def hasInk (cs : List Char) : Bool :=
  cs.any (· ≠ ' ')

/-- The newlines stand between the lines only. -/
theorem Line.kind_ne_newline {n : Nat} {ts : List Token} (h : Line n ts) :
    ∀ tok ∈ ts, tok.kind ≠ .newline := by
  induction h with
  | nil => simp
  | comment => simp
  | @cons kind col ts hk _ _ ih =>
    rw [List.forall_mem_cons]
    refine ⟨?_, ih⟩
    rintro (rfl : kind = .newline)
    exact hk

/-- A line that is more than spaces has a token. -/
theorem lineTokens_eq_nil_iff {n col : Nat} {cs : List Char} :
    lineTokens n col cs = [] ↔ hasInk cs = false := by
  fun_induction lineTokens n col cs with
  | case1 => simp [hasInk]
  | case2 col cs ih =>
    rw [ih]
    simp [hasInk]
  | case3 col c cs hspace ih => simp [hasInk, hspace]

/-- Every line has its newline, unless it is the last one and has no token. -/
theorem tokensOfLines_eq (n : Nat) (lines : List (List Char)) :
    tokensOfLines n lines = closedLines n (keepLast hasInk lines) := by
  induction lines generalizing n with
  | nil => rfl
  | cons cs lines ih =>
    by_cases hlast : lines = []
    · subst hlast
      by_cases hnil : lineTokens n 1 cs = []
      · have hink := lineTokens_eq_nil_iff.mp hnil
        rw [tokensOfLines, hnil]
        simp [keepLast, hink, closedLines]
      · have hink : hasInk cs = true := by
          rw [← Bool.not_eq_false]
          exact fun hblank => hnil (lineTokens_eq_nil_iff.mpr hblank)
        rw [tokensOfLines_cons n cs [] (.inl hnil)]
        simp [keepLast, hink, closedLines, tokensOfLines]
    · rw [tokensOfLines_cons n cs lines (.inr hlast), keepLast_cons hlast, closedLines, ih]

theorem closedLines_append (n : Nat) (xs ys : List (List Char)) :
    closedLines n (xs ++ ys) = closedLines n xs ++ closedLines (n + xs.length) ys := by
  induction xs generalizing n with
  | nil => rfl
  | cons cs xs ih =>
    rw [List.cons_append, closedLines, closedLines, ih, List.append_assoc, List.length_cons,
      Nat.add_right_comm n 1]
    rfl

/-- A line without tokens has its newline only. -/
theorem closedLines_concat {n : Nat} {lines : List (List Char)} {cs : List Char}
    (h : hasInk cs = false) :
    closedLines n (lines ++ [cs]) =
      closedLines n lines ++ [newlineAfter (n + lines.length) cs] := by
  rw [closedLines_append, closedLines, lineTokens_eq_nil_iff.mpr h]
  rfl

theorem sourceLines_eq (source : String) :
    sourceLines source =
      (Text.splitAt '\r' source.toList).map (List.filter (· ≠ '\n')) :=
  Text.splitAt_filter (by decide) _

/-- No line of a source text has a line end. -/
theorem notMem_of_mem_sourceLines {source : String} {cs : List Char} (h : cs ∈ sourceLines source) :
    '\r' ∉ cs ∧ '\n' ∉ cs := by
  refine ⟨Text.notMem_of_mem_splitAt cs h, ?_⟩
  rw [sourceLines_eq, List.mem_map] at h
  obtain ⟨segment, -, rfl⟩ := h
  simp

/-- The lines with a newline token are the segments, without their LF. -/
theorem keepLast_sourceLines (source : String) :
    keepLast hasInk (sourceLines source) =
      (Text.segments source).map (List.filter (· ≠ '\n')) := by
  have hink : ∀ segment : List Char, hasInk (segment.filter (· ≠ '\n')) =
      segment.any fun c => c ≠ '\n' && c ≠ ' ' := by
    intro segment
    rw [hasInk, List.any_filter]
  rw [sourceLines_eq, keepLast_map, Text.segments]
  simp only [hink]

/-- Lines with a CR after each but the last are found again, and LF beside the CR do not count. -/
theorem sourceLines_of_toList {source : String} {lines : List (List Char)} {last sep : List Char}
    (hsep : sep.filter (· ≠ '\n') = ['\r'])
    (hsource : source.toList = lines.flatMap (· ++ sep) ++ last)
    (hlines : ∀ cs ∈ lines, '\r' ∉ cs ∧ '\n' ∉ cs) (hlast : '\r' ∉ last ∧ '\n' ∉ last) :
    sourceLines source = lines ++ [last] := by
  have hnone : ∀ {cs : List Char}, '\n' ∉ cs → cs.filter (· ≠ '\n') = cs := by
    intro cs hcs
    rw [List.filter_eq_self]
    intro c hc
    exact decide_eq_true fun heq => hcs (heq ▸ hc)
  have hfilter : (lines.flatMap (· ++ sep)).filter (· ≠ '\n') = lines.flatMap (· ++ ['\r']) := by
    rw [List.filter_flatMap]
    refine List.flatMap_congr fun cs hcs => ?_
    rw [List.filter_append, hnone (hlines cs hcs).2, hsep]
  rw [sourceLines, hsource, List.filter_append, hfilter, hnone hlast.2]
  exact Text.splitAt_flatMap (fun cs hcs => (hlines cs hcs).1) hlast.1

end Lexer

/-- The tokens of a text are those of its lines, each with its newline. -/
theorem tokenize_eq (source : String) :
    tokenize source = Lexer.closedLines 1 (keepLast Lexer.hasInk (Lexer.sourceLines source)) := by
  rw [tokenize_eq_tokensOfLines, Lexer.tokensOfLines_eq]

theorem tokenize_of_toList {source : String} {lines : List (List Char)} {last sep : List Char}
    (hsep : sep.filter (· ≠ '\n') = ['\r'])
    (hsource : source.toList = lines.flatMap (· ++ sep) ++ last)
    (hlines : ∀ cs ∈ lines, '\r' ∉ cs ∧ '\n' ∉ cs) (hlast : '\r' ∉ last ∧ '\n' ∉ last) :
    tokenize source =
      Lexer.closedLines 1 (if Lexer.hasInk last then lines ++ [last] else lines) := by
  rw [tokenize_eq, Lexer.sourceLines_of_toList hsep hsource hlines hlast, keepLast_concat]

end Asm8
