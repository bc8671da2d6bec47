import Asm8.Text.Hex

/-!
The memory image.

An image has 256 cells, each empty or holding a byte, and a cursor. A cell is written once, at the
cursor, which then moves on; later only the byte of a written cell may be replaced. After the last
cell the cursor stands at 256, where nothing can be written.
-/

namespace Asm8

/-- A memory image under construction. -/
structure Image where
  cells : Vector (Option UInt8) 256
  cursor : Nat
  deriving DecidableEq

/-- Why a byte cannot be written at the cursor. -/
inductive WriteFault where
  | full
  | taken (address : Nat)
  deriving DecidableEq, Repr

/-- The wording of a refused write. -/
def WriteFault.message : WriteFault → String
  | full => "RAM space exceeded"
  | taken address => "Duplicate RAM allocation at address " ++ Text.hex address

namespace Image

/-- The image of empty cells with the cursor on the first. -/
def empty : Image := ⟨.replicate 256 none, 0⟩

/-- The byte of a written cell. -/
def get? (m : Image) (address : Nat) : Option UInt8 :=
  m.cells[address]?.join

/-- Move the cursor without writing. -/
def org (m : Image) (address : UInt8) : Image :=
  { m with cursor := address.toNat }

/-- Write a byte into the empty cell at the cursor and move on; the address of the cell comes with
the image. -/
def write (m : Image) (b : UInt8) : Except WriteFault (Nat × Image) :=
  if h : m.cursor < 256 then
    match m.cells[m.cursor] with
    | some _ => .error (.taken m.cursor)
    | none => .ok (m.cursor, ⟨m.cells.set m.cursor (some b), m.cursor + 1⟩)
  else .error .full

/-- Write one byte several times, as often as there is room up to the given count. -/
def fill (m : Image) (b : UInt8) : Nat → Image
  | 0 => m
  | n + 1 =>
    match m.write b with
    | .error _ => m
    | .ok (_, m) => m.fill b n

/-- Replace the byte of a written cell; an empty cell stays empty. -/
def patch (m : Image) (address : Nat) (b : UInt8) : Image :=
  if (m.get? address).isSome then { m with cells := m.cells.setIfInBounds address (some b) } else m

/-- Which cells are written. -/
def used (m : Image) : List Bool :=
  m.cells.toList.map Option.isSome

/-- The bytes of all cells, with zero for an empty cell. -/
def ram (m : Image) : List UInt8 :=
  m.cells.toList.map (·.getD 0)

/-! ### What the operations do to cells and cursor -/

@[simp] theorem cursor_empty : empty.cursor = 0 := rfl

@[simp] theorem get?_empty (a : Nat) : empty.get? a = none := by
  by_cases h : a < 256 <;> simp [get?, empty, h]

@[simp] theorem cursor_org (m : Image) (address : UInt8) :
    (m.org address).cursor = address.toNat := rfl

@[simp] theorem get?_org (m : Image) (address : UInt8) (a : Nat) :
    (m.org address).get? a = m.get? a := rfl

theorem get?_of_lt {m : Image} {a : Nat} (h : a < 256) : m.get? a = m.cells[a] := by
  simp [get?, h]

theorem get?_of_le {m : Image} {a : Nat} (h : 256 ≤ a) : m.get? a = none := by
  simp [get?, h]

theorem lt_of_isSome {m : Image} {a : Nat} (h : (m.get? a).isSome) : a < 256 := by
  refine Nat.lt_of_not_le fun hle => ?_
  simp [get?_of_le hle] at h

/-- A write fails past the last cell, and only there, for want of room. -/
theorem write_eq_full_iff {m : Image} {b : UInt8} : m.write b = .error .full ↔ 256 ≤ m.cursor := by
  unfold write
  by_cases h : m.cursor < 256
  · rw [dif_pos h]
    split <;> simp [h]
  · rw [dif_neg h]
    simp only [Nat.not_lt] at h
    simp [h]

/-- A write fails on a written cell, and only there, because the cell is taken. -/
theorem write_eq_taken_iff {m : Image} {b : UInt8} {a : Nat} :
    m.write b = .error (.taken a) ↔ a = m.cursor ∧ (m.get? m.cursor).isSome := by
  unfold write
  by_cases h : m.cursor < 256
  · rw [dif_pos h, get?_of_lt h]
    split
    · next heq => simp [heq, eq_comm]
    · next heq => simp [heq]
  · rw [dif_neg h, get?_of_le (by omega)]
    simp

/-- The cell of a write is the one at the cursor, which moves by one. -/
theorem cursor_write {m m' : Image} {b : UInt8} {address : Nat}
    (h : m.write b = .ok (address, m')) : address = m.cursor ∧ m'.cursor = m.cursor + 1 := by
  unfold write at h
  split at h
  · split at h
    · simp at h
    · simp only [Except.ok.injEq, Prod.mk.injEq] at h
      rw [← h.2]
      exact ⟨h.1.symm, rfl⟩
  · simp at h

/-- A write fills the cell at the cursor and leaves the others. -/
theorem get?_write {m m' : Image} {b : UInt8} {address : Nat}
    (h : m.write b = .ok (address, m')) (a : Nat) :
    m'.get? a = if a = m.cursor then some b else m.get? a := by
  unfold write at h
  split at h
  · next hc =>
    split at h
    · simp at h
    · simp only [Except.ok.injEq, Prod.mk.injEq] at h
      rw [← h.2]
      by_cases ha : a = m.cursor
      · simp [get?, ha, hc]
      · simp [get?, ha, Ne.symm ha]
  · simp at h

@[simp] theorem cursor_patch (m : Image) (address : Nat) (b : UInt8) :
    (m.patch address b).cursor = m.cursor := by
  unfold patch
  split <;> rfl

/-- A patch changes the byte of a written cell and nothing else. -/
theorem get?_patch (m : Image) (address : Nat) (b : UInt8) (a : Nat) :
    (m.patch address b).get? a =
      if a = address ∧ (m.get? address).isSome then some b else m.get? a := by
  unfold patch
  by_cases hw : (m.get? address).isSome
  · rw [if_pos hw]
    by_cases ha : a = address
    · subst ha
      have hlt : a < 256 := by
        rcases Nat.lt_or_ge a 256 with h | h
        · exact h
        · rw [get?_of_le h] at hw
          simp at hw
      rw [if_pos ⟨rfl, hw⟩]
      simp [get?, hlt]
    · simp [get?, ha, Ne.symm ha]
  · simp [hw]

end Image

end Asm8
