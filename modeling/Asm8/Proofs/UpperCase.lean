import Asm8.Text.Blank
import Asm8.Text.Upper

/-!
Upper case is final.

The upper-case form of a character is made of characters that are their own upper-case form, so that a
text in upper case stays as it is. Nor does upper case make a blank, a slash or a semicolon out of
anything else. All this is one fact about the table: the code points that it leads to are apart from
those that it leads away from, and from the few that must not appear.

    lower ── upperChar ──▶ upper      upper ── upperChar ──▶ upper
    blank, slash, semicolon: neither in the one nor in the other

Sets of code points are compared as numbers with one bit for each of them.
-/

namespace Asm8.Text

/-! ### Sets of numbers as numbers -/

/-- A set of numbers in one number. -/
def bits (ns : List Nat) : Nat :=
  ns.foldr (fun n b => b ||| 1 <<< n) 0

theorem testBit_bits {n : Nat} {ns : List Nat} : (bits ns).testBit n ↔ n ∈ ns := by
  induction ns with
  | nil => simp [bits]
  | cons k ns ih =>
    change (bits ns ||| 1 <<< k).testBit n ↔ _
    rw [Nat.testBit_or, Nat.one_shiftLeft, Nat.testBit_two_pow, Bool.or_eq_true, ih, List.mem_cons,
      decide_eq_true_eq, or_comm, eq_comm]

/-- Sets without a common bit have no common element. -/
theorem notMem_of_bits {xs ys : List Nat} (h : bits xs &&& bits ys = 0) {n : Nat} (hx : n ∈ xs) :
    n ∉ ys := by
  intro hy
  have hboth : (bits xs &&& bits ys).testBit n := by
    rw [Nat.testBit_and, testBit_bits.mpr hx, testBit_bits.mpr hy]
    rfl
  simp [h] at hboth

/-! ### The two sides of the table -/

namespace CaseRun

variable {r : CaseRun} {n : Nat}

/-- The code points along a run that starts here. -/
def along (r : CaseRun) (start : Nat) : List Nat :=
  (List.range ((r.last - r.first) / r.step + 1)).map (start + r.step * ·)

/-- The code points of the upper-case forms that the run gives. -/
def images (r : CaseRun) : List Nat :=
  r.along r.image ++ r.further

theorem add_mem_along (h : r.covers n) (start : Nat) : start + (n - r.first) ∈ r.along start := by
  simp only [covers, Bool.and_eq_true, decide_eq_true_eq, beq_iff_eq] at h
  obtain ⟨⟨-, hlast⟩, hstep⟩ := h
  have hle : (n - r.first) / r.step ≤ (r.last - r.first) / r.step :=
    Nat.div_le_div_right (by omega)
  refine List.mem_map.mpr ⟨(n - r.first) / r.step, List.mem_range.mpr (by omega), ?_⟩
  rw [Nat.mul_div_cancel' (Nat.dvd_of_mod_eq_zero hstep)]

theorem mem_along_first (h : r.covers n) : n ∈ r.along r.first := by
  have hmem := add_mem_along h r.first
  simp only [covers, Bool.and_eq_true, decide_eq_true_eq] at h
  rwa [Nat.add_sub_cancel' h.1.1] at hmem

theorem exists_mem_images {d : Char} (h : r.covers n) (hd : d ∈ r.apply n) :
    ∃ x ∈ r.images, d = Char.ofNat x := by
  rw [apply, List.mem_cons, List.mem_map] at hd
  rcases hd with hd | ⟨x, hx, rfl⟩
  · exact ⟨_, List.mem_append_left _ (add_mem_along h r.image), hd⟩
  · exact ⟨x, List.mem_append_right _ hx, rfl⟩

end CaseRun

/-- The code points that have another upper-case form. -/
def lowerPoints : List Nat :=
  List.range' 0x61 26 ++ caseRuns.flatMap fun r => r.along r.first

/-- The code points that upper-case forms are made of, where they are another form. -/
def upperPoints : List Nat :=
  List.range' 0x41 26 ++ caseRuns.flatMap CaseRun.images

/-- Blanks, the slash and the semicolon: what upper case must not make of anything else. -/
def marks : List Nat :=
  0x2F :: 0x3B :: blankRanges.flatMap fun r => List.range' r.1 (r.2 + 1 - r.1)

/-- Zero stands for the code points that are no characters. -/
theorem upperPoints_apart : bits (0 :: upperPoints) &&& bits (lowerPoints ++ marks) = 0 := by
  decide +kernel

theorem mem_marks_of_isBlank {c : Char} (h : isBlank c) : c.toNat ∈ marks := by
  obtain ⟨r, hr, hle⟩ := List.any_eq_true.mp h
  simp only [Bool.and_eq_true, decide_eq_true_eq] at hle
  refine List.mem_cons_of_mem _ (List.mem_cons_of_mem _ (List.mem_flatMap.mpr ⟨r, hr, ?_⟩))
  rw [List.mem_range'_1]
  omega

/-! ### Characters -/

variable {c d : Char}

theorem toUpper_cases (c : Char) : c.toUpper = c ∨
    c.toNat ∈ List.range' 0x61 26 ∧ ∃ x ∈ List.range' 0x41 26, c.toUpper = Char.ofNat x := by
  unfold Char.toUpper
  split
  case isFalse => exact .inl rfl
  case isTrue h =>
    have hge : 0x61 ≤ c.toNat := UInt32.le_iff_toNat_le.mp h.1
    have hle : c.toNat ≤ 0x7A := UInt32.le_iff_toNat_le.mp h.2
    have hval : (c.val + ('A'.val - 'a'.val)).toNat = c.toNat - 0x20 := by
      rw [UInt32.toNat_add]
      change (c.toNat + 0xFFFFFFE0) % 2 ^ 32 = _
      omega
    refine .inr ⟨by rw [List.mem_range'_1]; omega, _, ?_, (Char.ofNat_toNat _).symm⟩
    rw [List.mem_range'_1, Char.toNat, hval]
    omega

/-- A character that is on no run keeps its form. -/
theorem upperChar_of_notMem (h : c.toNat ∉ lowerPoints) : upperChar c = [c] := by
  rw [lowerPoints, List.mem_append, not_or] at h
  unfold upperChar
  split
  · rw [(toUpper_cases c).resolve_right fun hlower => h.1 hlower.1]
  · have hnone : caseRuns.find? (·.covers c.toNat) = none := by
      rw [List.find?_eq_none]
      intro r hr hcovers
      exact h.2 (List.mem_flatMap.mpr ⟨r, hr, CaseRun.mem_along_first hcovers⟩)
    rw [hnone]

/-- A character keeps its form or is spelled out in the characters of the other side. -/
theorem upperChar_cases (c : Char) :
    upperChar c = [c] ∨ ∀ d ∈ upperChar c, ∃ x ∈ upperPoints, d = Char.ofNat x := by
  by_cases hc : c.toNat < 0x80
  · have hupper : upperChar c = [c.toUpper] := if_pos hc
    rcases toUpper_cases c with heq | ⟨-, x, hx, heq⟩
    · exact .inl (by rw [hupper, heq])
    · right
      intro d hd
      rw [hupper, List.mem_singleton] at hd
      exact ⟨x, List.mem_append_left _ hx, hd.trans heq⟩
  · cases hfind : caseRuns.find? (·.covers c.toNat) with
    | none => exact .inl (by rw [upperChar, if_neg hc, hfind])
    | some r =>
      right
      intro d hd
      rw [upperChar, if_neg hc, hfind] at hd
      obtain ⟨x, hx, heq⟩ := CaseRun.exists_mem_images (by simpa using List.find?_some hfind) hd
      have hmem := List.mem_flatMap.mpr ⟨r, List.mem_of_find?_eq_some hfind, hx⟩
      exact ⟨x, List.mem_append_right _ hmem, heq⟩

/-- The other side is apart from what has another form, and from the marks. -/
theorem toNat_ofNat_notMem {x : Nat} (hx : x ∈ upperPoints) :
    (Char.ofNat x).toNat ∉ lowerPoints ++ marks := by
  by_cases hv : x.isValidChar
  · have heq : (Char.ofNat x).toNat = x := by
      rw [Char.ofNat, dif_pos hv]
      rfl
    rw [heq]
    exact notMem_of_bits upperPoints_apart (List.mem_cons_of_mem _ hx)
  · rw [Char.ofNat, dif_neg hv]
    exact notMem_of_bits upperPoints_apart List.mem_cons_self

/-- Upper-case forms are their own upper-case forms. -/
theorem upperChar_of_mem (h : d ∈ upperChar c) : upperChar d = [d] := by
  rcases upperChar_cases c with hc | hc
  · rw [hc, List.mem_singleton] at h
    rw [h, hc]
  · obtain ⟨x, hx, rfl⟩ := hc d h
    refine upperChar_of_notMem fun hmem => ?_
    exact toNat_ofNat_notMem hx (List.mem_append_left _ hmem)

/-- Only a mark has a mark in its upper-case form: itself. -/
theorem upperChar_of_mem_marks (h : d ∈ upperChar c) (hd : d.toNat ∈ marks) :
    c = d ∧ upperChar c = [c] := by
  rcases upperChar_cases c with hc | hc
  · have hmem := h
    rw [hc, List.mem_singleton] at hmem
    exact ⟨hmem.symm, hc⟩
  · obtain ⟨x, hx, rfl⟩ := hc d h
    exact absurd (List.mem_append_right _ hd) (toNat_ofNat_notMem hx)

/-! ### Texts -/

/-- Text without lower-case letters is its own upper-case form. -/
theorem flatMap_upperChar_of_forall {cs : List Char} (h : ∀ c ∈ cs, upperChar c = [c]) :
    cs.flatMap upperChar = cs := by
  induction cs with
  | nil => rfl
  | cons c cs ih =>
    obtain ⟨hc, hcs⟩ := List.forall_mem_cons.mp h
    rw [List.flatMap_cons, hc, ih hcs]
    rfl

theorem upperChar_of_mem_upper {s : String} (h : c ∈ (upper s).toList) : upperChar c = [c] := by
  rw [upper, String.toList_ofList, List.mem_flatMap] at h
  obtain ⟨b, -, hc⟩ := h
  exact upperChar_of_mem hc

/-- A mark stands in the upper-case form of a text only if it stands in the text. -/
theorem mem_of_mem_upper {s : String} (h : c ∈ (upper s).toList) (hc : c.toNat ∈ marks) :
    c ∈ s.toList := by
  rw [upper, String.toList_ofList, List.mem_flatMap] at h
  obtain ⟨b, hb, hmem⟩ := h
  exact (upperChar_of_mem_marks hmem hc).1 ▸ hb

end Asm8.Text
