import Asm8.Proofs.Excerpts
import Mathlib.Data.List.Chain

/-!
The style of line ends does not matter.

A text may end its lines in LF, in CR or in CR LF, and in each line another way. Written with CR LF
throughout, it has the same lines, so that nothing the assembler says depends on the style:

    A LF B CR C CR LF D      A CR LF B CR LF C CR LF D      lines  A  B  C  D

There is one place where two line ends run into each other: a CR with an LF after it is one line end
and not two. Hence a line that ends in CR must not come before an empty line that ends in LF.
-/

namespace Asm8.Text

/-! ### Lines with their ends -/

/-- How a line may end. -/
inductive LineEnd where
  | lf
  | cr
  | crlf
  deriving DecidableEq, Repr

/-- The characters of a line end. -/
def LineEnd.text : LineEnd → String
  | lf => "\n"
  | cr => "\r"
  | crlf => "\r\n"

/-- No line end stands in the text. -/
def IsLine (s : String) : Prop :=
  '\r' ∉ s.toList ∧ '\n' ∉ s.toList

instance (s : String) : Decidable (IsLine s) :=
  inferInstanceAs (Decidable (_ ∧ _))

/-- A line and how it ends. -/
structure EndedLine where
  text : String
  ending : LineEnd
  isLine : IsLine text

/-- The line ends of two lines do not run into each other. -/
def EndedLine.Apart (l l' : EndedLine) : Prop :=
  ¬(l.ending = .cr ∧ l'.text = "" ∧ l'.ending = .lf)

instance (l l' : EndedLine) : Decidable (l.Apart l') :=
  inferInstanceAs (Decidable ¬_)

/-- Lines that end in any style, and a last one without an end. Where the last line has an end too,
nothing comes after it. -/
structure Styled where
  lines : List EndedLine
  last : String
  isLine : IsLine last
  apart : lines.IsChain EndedLine.Apart

namespace Styled

/-- The lines without their ends. -/
def contents (x : Styled) : List String :=
  x.lines.map EndedLine.text ++ [x.last]

/-- The lines, each with its own end. -/
def text (x : Styled) : String :=
  String.join (x.lines.map fun l => l.text ++ l.ending.text) ++ x.last

/-- The lines, each with CR LF for its end. -/
def ruled (x : Styled) : String :=
  String.join (x.lines.map fun l => l.text ++ "\r\n") ++ x.last

end Styled

/-! ### One line end after the other -/

theorem crlfChars_cons {c : Char} (hcr : c ≠ '\r') (hlf : c ≠ '\n') (cs : List Char) :
    crlfChars (c :: cs) = c :: crlfChars cs := by
  rw [crlfChars] <;> simp [hcr, hlf]

/-- A line stays as it is. -/
theorem crlfChars_append {line : List Char} (h : '\r' ∉ line ∧ '\n' ∉ line) (cs : List Char) :
    crlfChars (line ++ cs) = line ++ crlfChars cs := by
  induction line with
  | nil => rfl
  | cons c line ih =>
    simp only [List.mem_cons, not_or] at h
    obtain ⟨⟨hcr, hcrs⟩, hlf, hlfs⟩ := h
    rw [List.cons_append, crlfChars_cons (Ne.symm hcr) (Ne.symm hlf), ih ⟨hcrs, hlfs⟩,
      List.cons_append]

/-- A line end becomes CR LF, unless it is a CR with an LF after it. -/
theorem crlfChars_lineEnd {e : LineEnd} {cs : List Char} (h : e = .cr → cs.head? ≠ some '\n') :
    crlfChars (e.text.toList ++ cs) = '\r' :: '\n' :: crlfChars cs := by
  cases e with
  | lf => rfl
  | crlf => rfl
  | cr =>
    cases cs with
    | nil => rfl
    | cons c cs =>
      have hlf : c ≠ '\n' := by simpa using h rfl
      have hchars : LineEnd.cr.text.toList ++ c :: cs = '\r' :: c :: cs := rfl
      rw [hchars, crlfChars]
      simp [hlf]

namespace Styled

theorem toList_text (x : Styled) :
    x.text.toList =
      x.lines.flatMap (fun l => l.text.toList ++ l.ending.text.toList) ++ x.last.toList := by
  simp [text, List.flatMap_map]

theorem toList_ruled (x : Styled) :
    x.ruled.toList = x.lines.flatMap (fun l => l.text.toList ++ ['\r', '\n']) ++ x.last.toList := by
  simp [ruled, List.flatMap_map]

end Styled

/-- Only an empty line that ends in LF begins with an LF. -/
theorem EndedLine.Apart.head?_ne {l : EndedLine} {lines : List EndedLine} {last : String}
    (hlast : IsLine last) (h : (l :: lines).IsChain EndedLine.Apart) (hcr : l.ending = .cr) :
    (lines.flatMap (fun l => l.text.toList ++ l.ending.text.toList) ++ last.toList).head? ≠
      some '\n' := by
  intro hhead
  cases lines with
  | nil =>
    exact hlast.2 (List.mem_of_mem_head? hhead)
  | cons l' lines =>
    have hapart : l.Apart l' := (List.isChain_cons_cons.mp h).1
    cases htext : l'.text.toList with
    | cons c cs =>
      rw [List.flatMap_cons, htext] at hhead
      have hc : c = '\n' := by simpa using hhead
      exact l'.isLine.2 (by rw [htext, hc]; exact List.mem_cons_self)
    | nil =>
      refine hapart ⟨hcr, String.toList_eq_nil_iff.mp htext, ?_⟩
      cases hending : l'.ending with
      | lf => rfl
      | cr => simp [htext, hending, LineEnd.text] at hhead
      | crlf => simp [htext, hending, LineEnd.text] at hhead

/-- Lines that end in any style get CR LF for every line end. -/
theorem crlfChars_flatMap {lines : List EndedLine} {last : String} (hlast : IsLine last)
    (h : lines.IsChain EndedLine.Apart) :
    crlfChars (lines.flatMap (fun l => l.text.toList ++ l.ending.text.toList) ++ last.toList) =
      lines.flatMap (fun l => l.text.toList ++ ['\r', '\n']) ++ last.toList := by
  induction lines with
  | nil => simpa [crlfChars] using crlfChars_append hlast []
  | cons l lines ih =>
    have hhead := EndedLine.Apart.head?_ne hlast h
    rw [List.flatMap_cons, List.append_assoc, List.append_assoc, crlfChars_append l.isLine,
      crlfChars_lineEnd hhead, ih h.tail, List.flatMap_cons, List.append_assoc, List.append_assoc]
    rfl

theorem Styled.withCRLF_text (x : Styled) : withCRLF x.text = x.ruled := by
  rw [withCRLF_eq, x.toList_text, crlfChars_flatMap x.isLine x.apart, ← x.toList_ruled,
    String.ofList_toList]

/-! ### Line ends in pairs -/

/-- CR and LF stand in pairs only. -/
inductive Paired : List Char → Prop
  | nil : Paired []
  | lineEnd {cs : List Char} (h : Paired cs) : Paired ('\r' :: '\n' :: cs)
  | cons {c : Char} {cs : List Char} (hcr : c ≠ '\r') (hlf : c ≠ '\n') (h : Paired cs) :
    Paired (c :: cs)

theorem paired_crlfChars (cs : List Char) : Paired (crlfChars cs) := by
  fun_induction crlfChars cs with
  | case1 => exact .nil
  | case2 cs ih => exact .lineEnd ih
  | case3 cs _ ih => exact .lineEnd ih
  | case4 cs ih => exact .lineEnd ih
  | case5 c cs _ hcr hlf ih => exact .cons hcr hlf ih

namespace Paired

variable {cs : List Char}

theorem crlfChars_eq (h : Paired cs) : crlfChars cs = cs := by
  induction h with
  | nil => rfl
  | lineEnd _ ih => rw [crlfChars, ih]
  | cons hcr hlf _ ih => rw [crlfChars_cons hcr hlf, ih]

theorem lf_after_cr (h : Paired cs) :
    ∀ xs ys : List Char, cs = xs ++ '\r' :: ys → ys.head? = some '\n' := by
  induction h with
  | nil => intro xs ys heq; simp at heq
  | lineEnd _ ih =>
    intro xs ys heq
    rcases xs with _ | ⟨x, _ | ⟨y, xs⟩⟩
    · rw [← (List.cons.inj heq).2]
      rfl
    · simp at heq
    · exact ih xs ys (List.cons.inj (List.cons.inj heq).2).2
  | cons hcr _ _ ih =>
    intro xs ys heq
    cases xs with
    | nil => exact absurd (List.cons.inj heq).1 hcr
    | cons x xs => exact ih xs ys (List.cons.inj heq).2

theorem cr_before_lf (h : Paired cs) :
    ∀ xs ys : List Char, cs = xs ++ '\n' :: ys → xs.getLast? = some '\r' := by
  induction h with
  | nil => intro xs ys heq; simp at heq
  | lineEnd _ ih =>
    intro xs ys heq
    rcases xs with _ | ⟨x, _ | ⟨y, xs⟩⟩
    · simp at heq
    · rw [← (List.cons.inj heq).1]
      rfl
    · have hlast := ih xs ys (List.cons.inj (List.cons.inj heq).2).2
      simp [List.getLast?_cons, hlast]
  | cons _ hlf _ ih =>
    intro xs ys heq
    cases xs with
    | nil => exact absurd (List.cons.inj heq).1 hlf
    | cons x xs =>
      have hlast := ih xs ys (List.cons.inj heq).2
      simp [List.getLast?_cons, hlast]

end Paired

/-! ### Texts in any style -/

theorem paired_withCRLF (text : String) : Paired (withCRLF text).toList := by
  rw [withCRLF_eq, String.toList_ofList]
  exact paired_crlfChars text.toList

namespace Styled

theorem ruled_congr {x y : Styled} (h : x.contents = y.contents) : x.ruled = y.ruled := by
  obtain ⟨hlines, hlast⟩ := List.append_inj' h rfl
  have hmap : x.lines.map (fun l => l.text ++ "\r\n") = y.lines.map fun l => l.text ++ "\r\n" := by
    simpa [Function.comp_def] using congrArg (List.map (· ++ "\r\n")) hlines
  rw [ruled, ruled, hmap, List.singleton_inj.mp hlast]

/-- With CR LF for every line end the lexer sees the lines, no more and no less. -/
theorem sourceLines_ruled (x : Styled) :
    Lexer.sourceLines x.ruled = x.contents.map String.toList := by
  have htext : x.ruled.toList =
      (x.lines.map fun l => l.text.toList).flatMap (· ++ ['\r', '\n']) ++ x.last.toList := by
    rw [x.toList_ruled, List.flatMap_map]
  have hlines : ∀ cs ∈ x.lines.map fun l => l.text.toList, '\r' ∉ cs ∧ '\n' ∉ cs := by
    rw [List.forall_mem_map]
    exact fun l _ => l.isLine
  rw [Lexer.sourceLines_of_toList (by decide) htext hlines x.isLine, contents]
  simp

end Styled

end Asm8.Text

namespace Asm8

open Text

/-- Where every line end is written as CR LF, lines that end in LF, in CR or in CR LF are the same
lines, and these are the lines that the lexer sees. So the style of the line ends does not change what
is assembled. Every text comes out with CR and LF in pairs only, and then stays as it is. -/
theorem assemble_withCRLF_congr :
    (∀ x : Styled, withCRLF x.text = x.ruled ∧
      Lexer.sourceLines (withCRLF x.text) = x.contents.map String.toList) ∧
    (∀ x y : Styled, x.contents = y.contents →
      ∀ t, assemble t (withCRLF x.text) = assemble t (withCRLF y.text)) ∧
    ∀ text : String, withCRLF (withCRLF text) = withCRLF text ∧
      (∀ xs ys, (withCRLF text).toList = xs ++ '\r' :: ys → ys.head? = some '\n') ∧
      ∀ xs ys, (withCRLF text).toList = xs ++ '\n' :: ys → xs.getLast? = some '\r' := by
  refine ⟨?_, ?_, ?_⟩
  · intro x
    rw [x.withCRLF_text]
    exact ⟨rfl, x.sourceLines_ruled⟩
  · intro x y hsame t
    rw [x.withCRLF_text, y.withCRLF_text, Styled.ruled_congr hsame]
  · intro text
    have hpaired := paired_withCRLF text
    refine ⟨?_, hpaired.lf_after_cr, hpaired.cr_before_lf⟩
    rw [withCRLF_eq, hpaired.crlfChars_eq, String.ofList_toList]

/-- Three lines, each with another end, and a last line without one. -/
def Text.Styled.mixed : Styled where
  lines := [⟨"L: JMP L", .cr, by decide⟩, ⟨"", .crlf, by decide⟩, ⟨"", .lf, by decide⟩]
  last := "END"
  isLine := by decide
  apart := by decide

/-- The same lines, each with an LF. -/
def Text.Styled.simple : Styled where
  lines := [⟨"L: JMP L", .lf, by decide⟩, ⟨"", .lf, by decide⟩, ⟨"", .lf, by decide⟩]
  last := "END"
  isLine := by decide
  apart := by decide

theorem assemble_withCRLF_congr_mixed :
    Styled.mixed.text = "L: JMP L\r\r\n\nEND" ∧ Styled.simple.text = "L: JMP L\n\n\nEND" ∧
    Styled.mixed.contents = Styled.simple.contents ∧
    withCRLF Styled.mixed.text = "L: JMP L\r\n\r\n\r\nEND" ∧
    ∃ a, assemble .jumps (withCRLF Styled.mixed.text) = .ok a ∧
      assemble .jumps (withCRLF Styled.simple.text) = .ok a ∧
      a.image.ram.take 3 = [0xC0, 0x00, 0x00] ∧ a.lines[2]? = some (some 4) := by
  have hsame : Styled.mixed.contents = Styled.simple.contents := by decide
  obtain ⟨hruled, hstyle, -⟩ := assemble_withCRLF_congr
  obtain ⟨a, ha, hfacts⟩ := exists_ok_of_map_toOption
    (x := assemble .jumps (withCRLF Styled.mixed.text))
    (f := fun a => (a.image.ram.take 3, a.lines[2]?))
    (b := ([0xC0, 0x00, 0x00], some (some 4))) (by decide +kernel)
  obtain ⟨hram, hline⟩ := Prod.mk.inj hfacts
  refine ⟨by decide +kernel, by decide +kernel, hsame, ?_, a, ha, ?_, hram, hline⟩
  · rw [(hruled Styled.mixed).1]
    decide +kernel
  · rw [← hstyle _ _ hsame, ha]

end Asm8
