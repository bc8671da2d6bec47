import Asm8.Proofs.Coherence

/-!
The history of an image.

An image is made by writes at the cursor, moves of the cursor and patches of written cells, in any
order. Every edit leaves an event behind, and the events tell all about the image:

    org FF    write 01    write 02    org 00    write 03    patch 00 07    org 00     write 09
    moved     wrote FF    refused     moved     wrote 00    patched 00     moved      refused
                          full                                                        00 taken

The written cells are those of the successful writes, each of which had its cell for itself. A cell
holds the byte that came last. A write that is refused leaves the image as it is, so that only a move
of the cursor can help.
-/

namespace Asm8

/-- What can be done with an image. -/
inductive Edit where
  | write (b : UInt8)
  | org (address : UInt8)
  | patch (address : Nat) (b : UInt8)
  deriving DecidableEq

/-- What came of an edit. -/
inductive Event where
  | wrote (address : Nat) (b : UInt8)
  | refused (fault : WriteFault)
  | moved (address : UInt8)
  | patched (address : Nat) (b : UInt8)
  deriving DecidableEq

namespace Event

/-- The address of a successful write. -/
def wrote? : Event → Option Nat
  | wrote address _ => some address
  | _ => none

/-- The byte that an event puts into a cell. -/
def byteAt? (a : Nat) : Event → Option UInt8
  | wrote address b => if address = a then some b else none
  | patched address b => if address = a then some b else none
  | _ => none

/-- The addresses of the successful writes, in order. -/
def written (es : List Event) : List Nat :=
  es.filterMap wrote?

/-- The byte that came last into a cell. -/
def last? (es : List Event) (a : Nat) : Option UInt8 :=
  (es.filterMap (byteAt? a)).getLast?

theorem written_concat (es : List Event) (e : Event) :
    written (es ++ [e]) = written es ++ e.wrote?.toList := by
  rw [written, written, List.filterMap_append]
  cases he : e.wrote? <;> simp [he]

theorem last?_concat (es : List Event) (e : Event) (a : Nat) :
    last? (es ++ [e]) a = (e.byteAt? a).or (last? es a) := by
  rw [last?, last?, List.filterMap_append, List.getLast?_append]
  cases he : e.byteAt? a <;> simp [he]

end Event

namespace Image

/-- Make one edit. A write answers with the address of the cell that it fills. -/
def perform (m : Image) : Edit → Image × Event
  | .write b =>
    match m.write b with
    | .ok (address, m') => (m', .wrote address b)
    | .error fault => (m, .refused fault)
  | .org address => (m.org address, .moved address)
  | .patch address b => (m.patch address b, .patched address b)

/-- Make edits one after the other. -/
def performAll (m : Image) : List Edit → Image × List Event
  | [] => (m, [])
  | edit :: edits =>
    let (m', e) := m.perform edit
    let (m'', es) := m'.performAll edits
    (m'', e :: es)

/-- Only a written cell may be patched. -/
def permits (m : Image) : Edit → Bool
  | .patch address _ => (m.get? address).isSome
  | _ => true

/-- Every edit is permitted when its turn comes. -/
def permitsAll (m : Image) : List Edit → Bool
  | [] => true
  | edit :: edits => m.permits edit && (m.perform edit).1.permitsAll edits

/-- The image is what the events have made of an empty one. -/
structure Recorded (m : Image) (es : List Event) : Prop where
  cursor_le : m.cursor ≤ 256
  /-- no cell is written twice -/
  nodup : (Event.written es).Nodup
  used_iff : ∀ a : Nat, m.used[a]? = some true ↔ a ∈ Event.written es
  get?_eq : ∀ a, m.get? a = Event.last? es a
  ram_eq : ∀ a : Nat, m.used[a]? = some false → m.ram[a]? = some 0

variable {m : Image} {es : List Event} {edit : Edit} {b : UInt8} {f : WriteFault}

/-! ### What an edit preserves -/

theorem recorded_empty : Recorded empty [] where
  cursor_le := Nat.zero_le _
  nodup := List.nodup_nil
  used_iff a := by simp [getElem?_used_eq_true, Event.written]
  get?_eq a := get?_empty a
  ram_eq _ := getElem?_ram_of_unused

/-- A write into an empty cell is a new event for this cell. -/
theorem Recorded.wrote {m' : Image} {address : Nat} (h : m.Recorded es)
    (hw : m.write b = .ok (address, m')) : m'.Recorded (es ++ [.wrote address b]) := by
  obtain ⟨hlt, hfree⟩ := exists_write_iff.mp ⟨_, hw⟩
  obtain ⟨rfl, hcursor⟩ := cursor_write hw
  have hnew : m.cursor ∉ Event.written es := by
    rw [← h.used_iff, getElem?_used_eq_true, hfree]
    simp
  refine ⟨?_, ?_, fun a => ?_, fun a => ?_, fun _ => getElem?_ram_of_unused⟩
  · rw [hcursor]
    omega
  · rw [Event.written_concat]
    exact List.nodup_append'.mpr ⟨h.nodup, by simp [Event.wrote?], by simpa [Event.wrote?] using hnew⟩
  · rw [getElem?_used_eq_true, get?_write hw, Event.written_concat, List.mem_append, ← h.used_iff,
      getElem?_used_eq_true]
    by_cases ha : a = m.cursor <;> simp [ha, Event.wrote?]
  · rw [get?_write hw, Event.last?_concat, ← h.get?_eq]
    by_cases ha : a = m.cursor <;> simp [ha, Event.byteAt?, eq_comm]

/-- An event that neither fills a cell nor moves the cursor out of reach. -/
theorem Recorded.quiet {m' : Image} {e : Event} (h : m.Recorded es) (hc : m'.cursor ≤ 256)
    (hget : ∀ a, m'.get? a = m.get? a) (hwrote : e.wrote? = none) (hbyte : ∀ a, e.byteAt? a = none) :
    m'.Recorded (es ++ [e]) := by
  refine ⟨hc, ?_, fun a => ?_, fun a => ?_, fun _ => getElem?_ram_of_unused⟩
  · simpa [Event.written_concat, hwrote] using h.nodup
  · rw [getElem?_used_eq_true, hget, ← getElem?_used_eq_true, h.used_iff, Event.written_concat, hwrote]
    simp
  · rw [hget, Event.last?_concat, hbyte, h.get?_eq]
    rfl

/-- A patch of a written cell replaces its byte. -/
theorem Recorded.patched {address : Nat} (h : m.Recorded es) (hw : (m.get? address).isSome) :
    (m.patch address b).Recorded (es ++ [.patched address b]) := by
  refine ⟨?_, ?_, fun a => ?_, fun a => ?_, fun _ => getElem?_ram_of_unused⟩
  · rw [cursor_patch]
    exact h.cursor_le
  · simpa [Event.written_concat, Event.wrote?] using h.nodup
  · rw [getElem?_used_eq_true, get?_patch, Event.written_concat, List.mem_append, ← h.used_iff,
      getElem?_used_eq_true]
    by_cases ha : a = address
    · simp [ha, hw, Event.wrote?]
    · simp [ha, Event.wrote?]
  · rw [get?_patch, Event.last?_concat, ← h.get?_eq]
    by_cases ha : a = address
    · simp [ha, hw, Event.byteAt?]
    · simp [ha, Ne.symm ha, Event.byteAt?]

theorem Recorded.perform (h : m.Recorded es) (hp : m.permits edit) :
    (m.perform edit).1.Recorded (es ++ [(m.perform edit).2]) := by
  cases edit with
  | write b =>
    cases hw : m.write b with
    | ok r =>
      simp only [Image.perform, hw]
      exact h.wrote hw
    | error fault =>
      simp only [Image.perform, hw]
      exact h.quiet h.cursor_le (fun _ => rfl) rfl fun _ => rfl
  | org address =>
    have hle : (m.org address).cursor ≤ 256 := Nat.le_of_lt address.toNat_lt
    exact h.quiet hle (get?_org m address) rfl fun _ => rfl
  | patch address b => exact h.patched hp

theorem Recorded.performAll : ∀ {edits : List Edit} {m : Image} {es : List Event},
    m.Recorded es → m.permitsAll edits → (m.performAll edits).1.Recorded (es ++ (m.performAll edits).2)
  | [], _, es, h, _ => by simpa [Image.performAll] using h
  | edit :: edits, m, es, h, hp => by
    rw [permitsAll, Bool.and_eq_true] at hp
    have hrest := (h.perform hp.1).performAll hp.2
    rwa [List.append_assoc, List.singleton_append] at hrest

/-! ### Writes that are refused -/

/-- Whether a write is refused, and why, depends on the cursor and the written cells alone. -/
theorem write_eq_error_congr {m' : Image} {b' : UInt8} (hc : m'.cursor = m.cursor)
    (hused : (m'.get? m.cursor).isSome = (m.get? m.cursor).isSome) (h : m.write b = .error f) :
    m'.write b' = .error f := by
  cases f with
  | full =>
    rw [write_eq_full_iff] at h ⊢
    omega
  | taken a =>
    rw [write_eq_taken_iff] at h ⊢
    rwa [hc, hused]

/-- What is refused once is refused until the cursor is moved. -/
theorem write_refused_again : ∀ {more : List Edit} {m : Image},
    (∀ edit ∈ more, ∀ address, edit ≠ .org address) → m.write b = .error f → ∀ b',
      (m.performAll more).1.write b' = .error f
  | [], _, _, h, b' => write_eq_error_congr rfl rfl h
  | edit :: more, m, hmore, h, b' => by
    obtain ⟨hedit, hmore⟩ := List.forall_mem_cons.mp hmore
    refine write_refused_again hmore (?_ : (m.perform edit).1.write b = .error f) b'
    cases edit with
    | write c =>
      have hagain : m.write c = .error f := write_eq_error_congr rfl rfl h
      simp only [Image.perform, hagain]
      exact h
    | org address => exact absurd rfl (hedit address)
    | patch address c =>
      refine write_eq_error_congr (cursor_patch m address c) ?_ h
      change ((m.patch address c).get? m.cursor).isSome = _
      rw [get?_patch]
      split
      · next hboth => rw [hboth.1, hboth.2]; rfl
      · rfl

/-! ### Histories -/

/-- Whatever is written, moved and patched on an empty image, as long as only written cells are
patched: the events tell which cells are written, none of them twice, and which byte each of them holds;
a write is refused past the last cell, and only there, for want of room, and on a written cell, and only
there, because it is taken; and a refused write changes nothing, so that all writes are refused for the
same reason until the cursor is moved. -/
theorem performAll_history {edits : List Edit} (hedits : empty.permitsAll edits) :
    let m := (empty.performAll edits).1
    m.Recorded (empty.performAll edits).2 ∧
      (∀ b, m.write b = .error .full ↔ m.cursor = 256) ∧
      (∀ b (a : Nat), m.write b = .error (.taken a) ↔ m.cursor = a ∧ m.used[a]? = some true) ∧
      ∀ b f, m.write b = .error f → m.perform (.write b) = (m, .refused f) ∧
        ∀ more : List Edit, (∀ edit ∈ more, ∀ address, edit ≠ .org address) →
          ∀ b', (m.performAll more).1.write b' = .error f := by
  intro m
  have hrecorded : m.Recorded (empty.performAll edits).2 := recorded_empty.performAll hedits
  refine ⟨hrecorded, fun b => ?_, fun b a => ?_, fun b f hw => ⟨?_, fun more hmore => ?_⟩⟩
  · have hle := hrecorded.cursor_le
    rw [write_eq_full_iff]
    omega
  · rw [write_eq_taken_iff, getElem?_used_eq_true]
    constructor
    · rintro ⟨rfl, hused⟩
      exact ⟨rfl, hused⟩
    · rintro ⟨rfl, hused⟩
      exact ⟨rfl, hused⟩
  · simp only [perform, hw]
  · exact write_refused_again hmore hw

/-- A byte in the last cell and one in the first, which is patched. -/
def edges : List Edit :=
  [.org 0xFF, .write 0x01, .write 0x02, .org 0x00, .write 0x03, .patch 0x00 0x07, .org 0x00]

/-- The first cell is taken: a byte is refused there, patched or not. -/
theorem performAll_history_edges :
    empty.permitsAll edges ∧
    (empty.performAll edges).2 = [.moved 0xFF, .wrote 0xFF 0x01, .refused .full, .moved 0x00,
      .wrote 0x00 0x03, .patched 0x00 0x07, .moved 0x00] ∧
    (empty.performAll edges).1.get? 0x00 = some 0x07 ∧
    ((empty.performAll edges).1.performAll [.write 0x09, .patch 0xFF 0x0A]).1.write 0x0B =
      .error (.taken 0x00) := by
  have hpermits : empty.permitsAll edges := by decide +kernel
  have hevents : (empty.performAll edges).2 = [.moved 0xFF, .wrote 0xFF 0x01, .refused .full,
      .moved 0x00, .wrote 0x00 0x03, .patched 0x00 0x07, .moved 0x00] := by decide +kernel
  obtain ⟨hrecorded, -, htaken, hrefused⟩ := performAll_history hpermits
  have hused : (empty.performAll edges).1.used[0x00]? = some true :=
    (hrecorded.used_iff 0x00).mpr (by rw [hevents]; decide)
  have hcursor : (empty.performAll edges).1.cursor = 0x00 := by decide +kernel
  refine ⟨hpermits, hevents, ?_, ?_⟩
  · rw [hrecorded.get?_eq, hevents]
    decide
  · exact (hrefused 0x08 _ ((htaken 0x08 0x00).mpr ⟨hcursor, hused⟩)).2 _ (by simp) 0x0B

end Image

end Asm8
