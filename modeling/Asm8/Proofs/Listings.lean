import Asm8.Proofs.Printing
import Asm8.Proofs.Excerpts
import Asm8.Proofs.References
import Mathlib.Data.List.Sort

/-!
A listing shows the image, line by line.

On a line there is one statement at most, and its bytes lie side by side. So the addresses of a line
are an interval, which the rows of the line cut in fours, and each row needs to show its first address
only:

    line 3  DB "HELLO"       03 04 05 06 07       [03] 48 45 4C 4C |    3: DB "HELLO"
                                                  [07] 4F          |

Every byte belongs to the line of its statement, and every line has rows of its own. Hence each used
address is on one row, with the byte of the image, and no other address is on any row.
-/

namespace Asm8

/-! ### Bytes of one line -/

namespace Replay

/-- The addresses of the bytes that a line asks for. -/
def addressesOn (r : Replay) (n : Nat) : List Nat :=
  (r.placed.filter (·.line = n)).map Placed.address

/-- The lines before line `n` are replayed, and the bytes of each of them lie side by side. -/
structure LineByLine (r : Replay) (n : Nat) : Prop where
  lines : ∀ p ∈ r.placed, 1 ≤ p.line ∧ p.line < n
  unbroken : ∀ k, ∃ lo len, r.addressesOn k = List.range' lo len

theorem lineByLine_start : start.LineByLine 1 :=
  ⟨by simp [start], fun _ => ⟨0, 0, rfl⟩⟩

theorem map_address_placeFrom : ∀ (c : Nat) (es : List Emission),
    (placeFrom c es).map Placed.address = List.range' c es.length
  | _, [] => rfl
  | c, e :: es => by
    rw [placeFrom, List.map_cons, map_address_placeFrom (c + 1) es, List.length_cons,
      List.range'_succ]

/-- One more line keeps this, if it places its bytes side by side. -/
theorem LineByLine.next {r r' : Replay} {n c : Nat} {es : List Emission} (h : r.LineByLine n)
    (hn : 1 ≤ n) (hplaced : r'.placed = r.placed ++ placeFrom c es)
    (hes : ∀ e ∈ es, e.line = n) : r'.LineByLine (n + 1) := by
  have hnew : ∀ p ∈ placeFrom c es, p.line = n := fun p hp => hes _ (mem_of_mem_placeFrom hp)
  constructor
  · rw [hplaced]
    intro p hp
    rcases List.mem_append.mp hp with hp | hp
    · have hold := h.lines p hp
      omega
    · have hline := hnew p hp
      omega
  · intro k
    by_cases hk : k = n
    · subst hk
      -- no byte was on this line before
      have hold : r.placed.filter (·.line = k) = [] := by
        rw [List.filter_eq_nil_iff]
        intro p hp
        have hline := (h.lines p hp).2
        simpa using Nat.ne_of_lt hline
      have hall : (placeFrom c es).filter (·.line = k) = placeFrom c es := by
        rw [List.filter_eq_self]
        exact fun p hp => decide_eq_true (hnew p hp)
      refine ⟨c, es.length, ?_⟩
      rw [addressesOn, hplaced, List.filter_append, hold, hall, List.nil_append,
        map_address_placeFrom]
    · have hnone : (placeFrom c es).filter (·.line = k) = [] := by
        rw [List.filter_eq_nil_iff]
        intro p hp
        simpa [hnew p hp] using Ne.symm hk
      obtain ⟨lo, len, hrange⟩ := h.unbroken k
      refine ⟨lo, len, ?_⟩
      rw [addressesOn, hplaced, List.filter_append, hnone, List.append_nil]
      exact hrange

end Replay

theorem Item.OnLine.emissions {n : Nat} {i : Item} (h : i.OnLine n) :
    ∀ e ∈ i.emissions, e.line = n := by
  cases i with
  | data bytes => exact h
  | instruction m s opcode operands => exact List.forall_mem_cons.mpr h
  | _ => simp [Item.emissions]

theorem LabelPart.placed_items {xs : List Token} {is : List Item} (h : LabelPart xs is)
    (r : Replay) : (r.items is).placed = r.placed := by
  cases h <;> rfl

theorem Ends.placed_items {ts : List Token} {is : List Item} {last : Token}
    (h : Ends ts is last) (r : Replay) : (r.items is).placed = r.placed := by
  obtain ⟨hlabel, -⟩ := h
  exact hlabel.placed_items r

/-- A line places the bytes of its statement, side by side. -/
theorem Reads.exists_placeFrom {t : Table} {n : Nat} {ts : List Token} {is : List Item}
    (h : Reads t ts is) (hl : ∀ tok ∈ ts, tok.line = n) (r : Replay) :
    ∃ c es, (r.items is).placed = r.placed ++ Replay.placeFrom c es ∧ ∀ e ∈ es, e.line = n := by
  have honLine := h.onLine hl
  obtain @⟨xs, ys, zs, label, js, hlabel, hs, -⟩ := h
  have hone : js = [] ∨ ∃ i, js = [i] := by
    cases hs with
    | none => exact .inl rfl
    | _ => exact .inr ⟨_, rfl⟩
  rw [Replay.items_append]
  rcases hone with rfl | ⟨i, rfl⟩
  · exact ⟨0, [], by simp [hlabel.placed_items, Replay.placeFrom], by simp⟩
  · refine ⟨(r.items label).cursor, i.emissions, ?_, (honLine i (by simp)).emissions⟩
    rw [Replay.items_cons, Replay.items_nil, Replay.placed_item, hlabel.placed_items]

/-- A program is replayed line by line. -/
theorem Program.lineByLine {t : Table} {label : List Item} {last : Token}
    {lines : List (List Char)} : ∀ {n : Nat} {body : List (List Item)} {r : Replay},
      Program t (Lexer.linesFrom n lines) body label last → 1 ≤ n → r.LineByLine n →
      ((r.items (body.flatten ++ label)).emit (t.ending last.line)).LineByLine
        (n + body.length + 1) := by
  induction lines with
  | nil => intro n body r h; cases h
  | cons cs lines ih =>
    intro n body r h hn hr
    rw [Lexer.linesFrom_cons] at h
    have hline := (Lexer.line_lineTokens n 1 cs).line_eq
    cases h with
    | final h =>
      obtain ⟨-, hlast⟩ := h.onLine hline
      have hplaced : ((r.items label).emit (t.ending last.line)).placed =
          r.placed ++ Replay.placeFrom (r.items label).cursor [t.ending last.line] := by
        simp [Replay.emit, h.placed_items, Replay.placeFrom]
      refine hr.next hn hplaced ?_
      simpa [Table.ending] using hlast
    | line _ h hs =>
      obtain ⟨c, es, hplaced, hes⟩ := h.exists_placeFrom hline r
      have hrest := ih hs (by omega) (hr.next hn hplaced hes)
      rw [List.flatten_cons, List.append_assoc, Replay.items_append, List.length_cons]
      rwa [Nat.add_right_comm n 1] at hrest

/-! ### Addresses of the lines -/

theorem tokens_of_assembleTokens {t : Table} {toks : List Token} {a : Assembly}
    (h : assembleTokens t toks = .ok a) : a.tokens = toks := by
  obtain ⟨e, -, hlink⟩ := bind_ok_iff.mp h
  split at hlink
  · simp at hlink
  · cases hlink
    rfl

theorem Listing.fst_tokenLines_tokenize (source : String) :
    (tokenLines [] (tokenize source)).map Prod.fst =
      List.range' 1 (keepLast Lexer.hasInk (Lexer.sourceLines source)).length := by
  rw [tokenize_eq, tokenLines_closedLines]
  exact List.map_fst_zip (by rw [List.length_range', length_linesFrom])

namespace Assembly

/-- The bytes of an assembly belong to its lines, each of which has an interval of the memory. -/
structure Lined (a : Assembly) : Prop where
  numbers : ((Listing.tokenLines [] a.tokens).map Prod.fst).Nodup
  used : ∀ x : Nat, a.image.used[x]? = some true ↔ ∃ n, a.lines[x]? = some (some n)
  onLine : ∀ x n : Nat, a.lines[x]? = some (some n) →
    n ∈ (Listing.tokenLines [] a.tokens).map Prod.fst
  unbroken : ∀ n, ∃ lo len, a.addressesOf n = List.range' lo len

theorem mem_addressesOf {a : Assembly} {n x : Nat} :
    x ∈ a.addressesOf n ↔ a.lines[x]? = some (some n) := by
  rw [addressesOf, List.mem_filter, List.mem_range, decide_eq_true_eq]
  constructor
  · exact And.right
  · intro h
    obtain ⟨hlt, -⟩ := Vector.getElem?_eq_some_iff.mp h
    exact ⟨hlt, h⟩

theorem pairwise_addressesOf (a : Assembly) (n : Nat) : (a.addressesOf n).Pairwise (· < ·) :=
  List.pairwise_lt_range.filter _

end Assembly

namespace Replay.Shows

variable {r : Replay} {a : Assembly}

/-- The line that is noted for an address is that of the byte there. -/
theorem lines_iff (h : r.Shows a) {x n : Nat} :
    a.lines[x]? = some (some n) ↔ ∃ p ∈ r.placed, p.address = x ∧ p.line = n := by
  constructor
  · intro hx
    obtain ⟨hlt, -⟩ := Vector.getElem?_eq_some_iff.mp hx
    have hplaced : ∃ p ∈ r.placed, p.address = x := by
      by_contra hfree
      push Not at hfree
      rw [(h.unused x hlt hfree).2.2] at hx
      cases hx
    obtain ⟨p, hp, rfl⟩ := hplaced
    obtain ⟨-, -, -, -, hline⟩ := h.written p hp
    rw [hline] at hx
    cases hx
    exact ⟨p, hp, rfl, rfl⟩
  · rintro ⟨p, hp, rfl, rfl⟩
    obtain ⟨-, -, -, -, hline⟩ := h.written p hp
    exact hline

theorem used_iff_lines (h : r.Shows a) {x : Nat} :
    a.image.used[x]? = some true ↔ ∃ n, a.lines[x]? = some (some n) := by
  constructor
  · intro hx
    have hlt := Image.lt_of_used hx
    by_contra hnone
    have hfree : ∀ p ∈ r.placed, p.address ≠ x := by
      intro p hp hpx
      exact hnone ⟨p.line, h.lines_iff.mpr ⟨p, hp, hpx, rfl⟩⟩
    rw [(h.unused x hlt hfree).2.1] at hx
    cases hx
  · rintro ⟨n, hn⟩
    obtain ⟨p, hp, rfl, -⟩ := h.lines_iff.mp hn
    obtain ⟨-, -, -, hused, -⟩ := h.written p hp
    exact hused

/-- The addresses of a line are those of its bytes. -/
theorem addressesOf_eq (h : r.Shows a) {n lo len : Nat}
    (hrange : r.addressesOn n = List.range' lo len) : a.addressesOf n = List.range' lo len := by
  refine (a.pairwise_addressesOf n).eq_of_mem_iff (List.pairwise_lt_range' 1) ?_
  intro x
  rw [Assembly.mem_addressesOf, h.lines_iff, ← hrange, addressesOn, List.mem_map]
  simp only [List.mem_filter, decide_eq_true_eq]
  constructor
  · rintro ⟨p, hp, hx, hn⟩
    exact ⟨p, ⟨hp, hn⟩, hx⟩
  · rintro ⟨p, ⟨hp, hn⟩, hx⟩
    exact ⟨p, hp, hx, hn⟩

end Replay.Shows

/-- Every source text that assembles has its bytes line by line. -/
theorem lined_of_assemble {t : Table} {source : String} {a : Assembly}
    (h : assemble t source = .ok a) : a.Lined := by
  obtain ⟨is, last, hread, -, -, hshows⟩ := assembleTokens_shows h
  obtain ⟨body, label, hprogram, hitems⟩ := hread.exists_program
  obtain ⟨-, -, hlast⟩ := hprogram.onLine
  have hlined : (Replay.program t is last.line).LineByLine (1 + body.length + 1) := by
    rw [Replay.program_congr hitems]
    exact hprogram.lineByLine (Nat.le_refl 1) Replay.lineByLine_start
  have hfst : (Listing.tokenLines [] a.tokens).map Prod.fst =
      List.range' 1 (keepLast Lexer.hasInk (Lexer.sourceLines source)).length := by
    rw [tokens_of_assembleTokens h]
    exact Listing.fst_tokenLines_tokenize source
  -- `END` is a token, and no byte is on a later line
  have hcount : body.length < (keepLast Lexer.hasInk (Lexer.sourceLines source)).length := by
    obtain ⟨⟨xs, rest, htoks, -⟩, -, -⟩ := hread
    have hmem : last ∈ tokenize source := by
      rw [htoks]
      simp
    rw [tokenize_eq] at hmem
    have hline := Lexer.line_of_mem_closedLines hmem
    omega
  constructor
  · rw [hfst]
    exact List.nodup_range' 1
  · exact fun x => hshows.used_iff_lines
  · intro x n hx
    obtain ⟨p, hp, -, rfl⟩ := hshows.lines_iff.mp hx
    have hline := hlined.lines p hp
    rw [hfst, List.mem_range'_1]
    omega
  · intro n
    obtain ⟨lo, len, hrange⟩ := hlined.unbroken n
    exact ⟨lo, len, hshows.addressesOf_eq hrange⟩

/-! ### Rows of a line -/

namespace Listing

variable {α : Type}

theorem flatten_quads (xs : List α) : (quads xs).flatten = xs := by
  fun_induction quads xs with
  | case1 => rfl
  | case2 a b c d rest ih => rw [List.flatten_cons, ih]; rfl
  | case3 short => simp

theorem length_of_mem_quads {xs q : List α} (h : q ∈ quads xs) :
    1 ≤ q.length ∧ q.length ≤ 4 := by
  fun_induction quads xs with
  | case1 => cases h
  | case2 a b c d rest ih =>
    rcases List.mem_cons.mp h with rfl | h
    · simp
    · exact ih h
  | case3 short hne hlong =>
    cases List.mem_singleton.mp h
    rcases q with _ | ⟨a, _ | ⟨b, _ | ⟨c, _ | ⟨d, rest⟩⟩⟩⟩
    · exact absurd rfl hne
    · simp
    · simp
    · simp
    · exact absurd rfl (hlong a b c d rest)

/-- The pieces of an interval are intervals. -/
theorem exists_range'_of_mem_quads {lo len : Nat} {q : List Nat}
    (h : q ∈ quads (List.range' lo len)) : ∃ s n, q = List.range' s n := by
  have hinfix := List.infix_of_mem_flatten h
  rw [flatten_quads] at hinfix
  obtain ⟨xs, ys, heq⟩ := hinfix
  obtain ⟨k, -, hleft, -⟩ := List.range'_eq_append_iff.mp heq.symm
  obtain ⟨j, -, -, hq⟩ := List.range'_eq_append_iff.mp hleft.symm
  exact ⟨_, _, hq⟩

end Listing

namespace Assembly

variable {a : Assembly}

/-- A row in its columns that shows the bytes of the image at its addresses. -/
structure Exact (a : Assembly) (r : ListingRow) : Prop where
  inColumns : r.InColumns
  bytes : r.bytes = r.addresses.map fun x => (a.image.get? x).getD 0

theorem addresses_listingRow (a : Assembly) (s n : Nat) (source : Option (Nat × String)) :
    (a.listingRow (List.range' s n) source).addresses = List.range' s n := by
  cases n with
  | zero => rfl
  | succ n => simp [listingRow, ListingRow.addresses, List.range'_succ]

theorem exact_listingRow {s n : Nat} (hn : n ≤ 4) (hs : ∀ x ∈ List.range' s n, x < 256)
    (source : Option (Nat × String)) : a.Exact (a.listingRow (List.range' s n) source) := by
  refine ⟨⟨by simpa [listingRow] using hn, ?_⟩, by rw [addresses_listingRow]; rfl⟩
  cases n with
  | zero => exact Nat.zero_lt_succ 255
  | succ n => exact hs s (by simp)

/-- The rows of a line have its bytes in order, and the first of them has its text. -/
structure LineRows (a : Assembly) (n : Nat) (text : String) (rows : List ListingRow) : Prop where
  sources : ∃ first later, rows = first :: later ∧ first.source = some (n, text) ∧
    ∀ r ∈ later, r.source = none
  exact : ∀ r ∈ rows, a.Exact r
  addresses : rows.flatMap ListingRow.addresses = a.addressesOf n

theorem Lined.exact_of_mem_quads (h : a.Lined) {n : Nat} {q : List Nat}
    (hq : q ∈ Listing.quads (a.addressesOf n)) (source : Option (Nat × String)) :
    a.Exact (a.listingRow q source) ∧ (a.listingRow q source).addresses = q := by
  have hlen := (Listing.length_of_mem_quads hq).2
  have hlt : ∀ x ∈ q, x < 256 := by
    intro x hx
    have hmem : x ∈ a.addressesOf n := by
      rw [← Listing.flatten_quads (a.addressesOf n)]
      exact List.mem_flatten_of_mem hq hx
    exact List.mem_range.mp (List.mem_of_mem_filter hmem)
  obtain ⟨lo, len, hrange⟩ := h.unbroken n
  rw [hrange] at hq
  obtain ⟨s, k, rfl⟩ := Listing.exists_range'_of_mem_quads hq
  rw [List.length_range'] at hlen
  exact ⟨exact_listingRow hlen hlt source, a.addresses_listingRow s k source⟩

theorem Lined.lineRows (h : a.Lined) (n : Nat) (text : String) :
    a.LineRows n text (a.rowsOf n text) := by
  have hflat := Listing.flatten_quads (a.addressesOf n)
  rw [rowsOf]
  split
  · next hnone =>
    -- a line without bytes has one row without address
    rw [hnone] at hflat
    refine ⟨⟨_, [], rfl, rfl, by simp⟩, ?_, hflat⟩
    intro r hr
    rw [List.mem_singleton.mp hr]
    exact exact_listingRow (s := 0) (n := 0) (by omega) (by simp) _
  · next quad rest hquads =>
    have hquad := fun q hq => h.exact_of_mem_quads (n := n) (q := q) (hquads ▸ hq)
    refine ⟨⟨_, _, rfl, rfl, by simp [listingRow]⟩, ?_, ?_⟩
    · rw [List.forall_mem_cons, List.forall_mem_map]
      exact ⟨(hquad quad (by simp) _).1, fun q hq => (hquad q (by simp [hq]) _).1⟩
    · rw [← hflat, hquads, List.flatMap_cons, List.flatMap_map, (hquad quad (by simp) _).2,
        List.flatten_cons]
      congr 1
      have hrest : rest.map (fun q => (a.listingRow q none).addresses) = rest.map id :=
        List.map_congr_left fun q hq => (hquad q (by simp [hq]) none).2
      rw [List.flatMap_def, hrest, List.map_id]

/-- The addresses of the rows are those of the lines, line by line. -/
theorem Lined.flatMap_addresses (h : a.Lined) (colour : Bool) :
    (a.listingRows colour).flatMap ListingRow.addresses =
      ((Listing.tokenLines [] a.tokens).map Prod.fst).flatMap a.addressesOf := by
  rw [listingRows, List.flatMap_assoc, List.flatMap_map]
  congr 1
  funext ⟨n, ts⟩
  exact (h.lineRows n _).addresses

theorem Lined.exact (h : a.Lined) {colour : Bool} {r : ListingRow}
    (hr : r ∈ a.listingRows colour) : a.Exact r := by
  obtain ⟨⟨n, ts⟩, -, hr⟩ := List.mem_flatMap.mp hr
  exact (h.lineRows n _).exact r hr

/-- No address is on two rows, or twice on one. -/
theorem Lined.nodup_addresses (h : a.Lined) (colour : Bool) :
    ((a.listingRows colour).flatMap ListingRow.addresses).Nodup := by
  rw [h.flatMap_addresses, List.nodup_flatMap]
  constructor
  · intro n _
    exact (a.pairwise_addressesOf n).imp Nat.ne_of_lt
  · refine h.numbers.imp ?_
    intro n m hnm x hx hx'
    rw [mem_addressesOf] at hx hx'
    rw [hx] at hx'
    cases hx'
    exact hnm rfl

/-- The rows have the used addresses. -/
theorem Lined.mem_addresses_iff (h : a.Lined) {colour : Bool} {x : Nat} :
    (∃ r ∈ a.listingRows colour, x ∈ r.addresses) ↔ a.image.used[x]? = some true := by
  rw [← List.mem_flatMap, h.flatMap_addresses, List.mem_flatMap, h.used]
  constructor
  · rintro ⟨n, -, hn⟩
    exact ⟨n, mem_addressesOf.mp hn⟩
  · rintro ⟨n, hn⟩
    exact ⟨n, h.onLine x n hn, mem_addressesOf.mpr hn⟩

end Assembly

/-- In a list of lists without duplicates, an element is in one list only. -/
theorem index_eq_of_nodup_flatMap {α β : Type} {f : α → List β} {l : List α}
    (h : (l.flatMap f).Nodup) {i j : Nat} {a b : α} {x : β} (hi : l[i]? = some a)
    (hj : l[j]? = some b) (ha : x ∈ f a) (hb : x ∈ f b) : i = j := by
  have hpair := List.pairwise_iff_getElem.mp (List.nodup_flatMap.mp h).2
  obtain ⟨hil, rfl⟩ := List.getElem?_eq_some_iff.mp hi
  obtain ⟨hjl, rfl⟩ := List.getElem?_eq_some_iff.mp hj
  rcases Nat.lt_trichotomy i j with hij | hij | hij
  · exact absurd hb (hpair i j hil hjl hij ha)
  · exact hij
  · exact absurd ha (hpair j i hjl hil hij hb)

/-! ### Listings -/

namespace Assembly

open Listing

/-- The lines of a listing from a source line: the first has its number and text, and together they
show the bytes of the source line. -/
def ShowsLine (a : Assembly) (line : Nat × List Token) (shown : List String) : Prop :=
  (∃ first later, shown = first :: later ∧
    Carries first (ListingRow.lineNumber line.1 ++ ": " ++ lineText false line.2) ∧
    ∀ s ∈ later, Carries s "") ∧
  ∀ x : Nat, (∃ s ∈ shown, Covers s x) ↔ a.lines[x]? = some (some line.1)

/-- The listing shows the image: every used address on one line, no other address, with the bytes of
the image, and every source line once. -/
structure Listed (a : Assembly) : Prop where
  used : ∀ x : Nat, a.image.used[x]? = some true →
    ∃! i : Nat, ∃ s, (a.listing false)[i]? = some s ∧ Covers s x
  unused : ∀ x : Nat, a.image.used[x]? ≠ some true → ∀ s ∈ a.listing false, ¬Covers s x
  bytes : ∀ s ∈ a.listing false, ∀ address bytes, Codes s address bytes →
    1 ≤ bytes.length ∧ bytes.length ≤ 4 ∧
      ∀ k < bytes.length, bytes[k]? = a.image.ram[address.toNat + k]?
  sources : ∃ shown, a.listing false = shown.flatten ∧
    List.Forall₂ a.ShowsLine (tokenLines [] a.tokens) shown
  interval : ∀ n, ∃ lo hi, ∀ x : Nat, a.lines[x]? = some (some n) ↔ lo ≤ x ∧ x < hi

variable {a : Assembly}

theorem exists_covers_iff {rows : List ListingRow} (h : ∀ r ∈ rows, a.Exact r) {x : Nat} :
    (∃ s ∈ rows.map ListingRow.text, Covers s x) ↔ ∃ r ∈ rows, x ∈ r.addresses := by
  simp only [List.mem_map, exists_exists_and_eq_and]
  constructor
  · rintro ⟨r, hr, hx⟩
    exact ⟨r, hr, (h r hr).inColumns.covers_iff.mp hx⟩
  · rintro ⟨r, hr, hx⟩
    exact ⟨r, hr, (h r hr).inColumns.covers_iff.mpr hx⟩

theorem Lined.showsLine (h : a.Lined) (line : Nat × List Token) :
    a.ShowsLine line ((a.rowsOf line.1 (lineText false line.2)).map ListingRow.text) := by
  have hrows := h.lineRows line.1 (lineText false line.2)
  constructor
  · obtain ⟨first, later, heq, hfirst, hlater⟩ := hrows.sources
    have hexact := hrows.exact
    rw [heq, List.forall_mem_cons] at hexact
    refine ⟨first.text, later.map ListingRow.text, by rw [heq, List.map_cons], ?_, ?_⟩
    · have hcarries := hexact.1.inColumns.carries
      rwa [ListingRow.body, hfirst] at hcarries
    · rw [List.forall_mem_map]
      intro r hr
      have hcarries := (hexact.2 r hr).inColumns.carries
      rwa [ListingRow.body, hlater r hr] at hcarries
  · intro x
    rw [← mem_addressesOf, ← hrows.addresses, List.mem_flatMap, exists_covers_iff hrows.exact]

/-- A row that shows bytes shows those of the image. -/
theorem Exact.bytes_of_codes {r : ListingRow} (h : a.Exact r) (hr : ∀ x ∈ r.addresses, x < 256)
    {address : UInt8} {bytes : List UInt8} (hcodes : Codes r.text address bytes) :
    1 ≤ bytes.length ∧ bytes.length ≤ 4 ∧
      ∀ k < bytes.length, bytes[k]? = a.image.ram[address.toNat + k]? := by
  have hne : r.bytes ≠ [] := fun hnil => ListingRow.not_codes hnil address bytes hcodes
  obtain ⟨rfl, rfl⟩ := (h.inColumns.codes hne).unique hcodes
  refine ⟨List.length_pos_iff.mpr hne, h.inColumns.bytes, ?_⟩
  intro k hk
  have hget : r.addresses[k]? = some (r.address + k) := by
    rw [ListingRow.addresses, List.getElem?_range' hk, Nat.one_mul]
  have hlt := hr _ (List.mem_of_getElem? hget)
  rw [h.inColumns.toNat_address, Image.getElem?_ram _ hlt, h.bytes, List.getElem?_map, hget]
  rfl

theorem Lined.covers_iff (h : a.Lined) {x : Nat} :
    (∃ s ∈ a.listing false, Covers s x) ↔ a.image.used[x]? = some true := by
  rw [listing, exists_covers_iff fun r hr => h.exact hr, h.mem_addresses_iff]

/-- No two lines show one address. -/
theorem Lined.index_unique (h : a.Lined) {i j x : Nat} {s s' : String}
    (hi : (a.listing false)[i]? = some s) (hj : (a.listing false)[j]? = some s')
    (hs : Covers s x) (hs' : Covers s' x) : i = j := by
  rw [listing, List.getElem?_map, Option.map_eq_some_iff] at hi hj
  obtain ⟨r, hr, rfl⟩ := hi
  obtain ⟨r', hr', rfl⟩ := hj
  rw [(h.exact (List.mem_of_getElem? hr)).inColumns.covers_iff] at hs
  rw [(h.exact (List.mem_of_getElem? hr')).inColumns.covers_iff] at hs'
  exact index_eq_of_nodup_flatMap (h.nodup_addresses false) hr hr' hs hs'

theorem Lined.bytes_of_codes (h : a.Lined) {s : String} (hs : s ∈ a.listing false)
    {address : UInt8} {bytes : List UInt8} (hcodes : Codes s address bytes) :
    1 ≤ bytes.length ∧ bytes.length ≤ 4 ∧
      ∀ k < bytes.length, bytes[k]? = a.image.ram[address.toNat + k]? := by
  obtain ⟨r, hr, rfl⟩ := List.mem_map.mp hs
  refine (h.exact hr).bytes_of_codes ?_ hcodes
  intro x hx
  exact Image.lt_of_used (h.mem_addresses_iff.mp ⟨r, hr, hx⟩)

end Assembly

/-- The listing of an assembled source text shows the image, each used address once, and every source
line with its number. -/
theorem assemble_listed {t : Table} {source : String} {a : Assembly}
    (h : assemble t source = .ok a) : a.Listed := by
  have hlined := lined_of_assemble h
  constructor
  · intro x hx
    obtain ⟨s, hs, hsx⟩ := hlined.covers_iff.mpr hx
    obtain ⟨i, hi⟩ := List.mem_iff_getElem?.mp hs
    refine ⟨i, ⟨s, hi, hsx⟩, ?_⟩
    rintro j ⟨s', hj, hsx'⟩
    exact hlined.index_unique hj hi hsx' hsx
  · intro x hx s hs hsx
    exact hx (hlined.covers_iff.mp ⟨s, hs, hsx⟩)
  · intro s hs address bytes hcodes
    exact hlined.bytes_of_codes hs hcodes
  · refine ⟨_, ?_, List.forall₂_map_right_iff.mpr
      (List.forall₂_same.mpr fun line _ => hlined.showsLine line)⟩
    rw [Assembly.listing, Assembly.listingRows, List.map_flatMap, List.flatMap_def]
  · intro n
    obtain ⟨lo, len, hrange⟩ := hlined.unbroken n
    refine ⟨lo, lo + len, fun x => ?_⟩
    rw [← Assembly.mem_addressesOf, hrange, List.mem_range'_1]

theorem assemble_listed_string :
    ∃ a, assemble .jumps "ORG 10\rL: DB \"HELLO\"\r\rJMP L\rEND\rafter\r" = .ok a ∧
      a.listing false =
        ["                 |    1: ORG 10",
         "[10] 48 45 4C 4C |    2: L: DB \"HELLO\"",
         "[14] 4F          | ",
         "                 |    3: ",
         "[15] C0 FB       |    4: JMP L",
         "[17] 00          |    5: END",
         "                 |    6: after"] ∧
      a.Listed := by
  obtain ⟨a, ha, hlisting⟩ := exists_ok_of_map_toOption
    (x := assemble .jumps "ORG 10\rL: DB \"HELLO\"\r\rJMP L\rEND\rafter\r")
    (f := fun a => a.listing false)
    (b := ["                 |    1: ORG 10",
      "[10] 48 45 4C 4C |    2: L: DB \"HELLO\"",
      "[14] 4F          | ",
      "                 |    3: ",
      "[15] C0 FB       |    4: JMP L",
      "[17] 00          |    5: END",
      "                 |    6: after"]) (by decide +kernel)
  exact ⟨a, ha, hlisting, assemble_listed ha⟩

end Asm8
