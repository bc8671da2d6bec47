import Asm8.Proofs.Rendering

/-!
The rows of a listing can be read back.

A row begins with an address and up to four bytes, or with as many spaces, and goes on with the source
line if it is the first row of its line:

    [AA] b₀ b₁ b₂ b₃ | source
    └───── 17 ──────┘

Two digits stand for a byte, so that address and bytes are found by their columns.
-/

namespace Asm8

/-! ### Bytes as two digits -/

namespace Text

/-- The byte that two digits stand for. -/
def byteOf (high low : Char) : UInt8 :=
  UInt8.ofNat (hexValue [high, low])

theorem hex_of_lt {n : Nat} (h : n < 256) :
    (hex n).toList = [hexChar (n / 16), hexChar (n % 16)] := by
  rw [hex, String.toList_ofList, hexDigits]
  by_cases hsmall : n < 16
  · rw [if_pos hsmall, Nat.div_eq_of_lt hsmall, Nat.mod_eq_of_lt hsmall]
    rfl
  · have hhigh : n / 16 < 16 := by omega
    rw [if_neg hsmall, hexDigits, if_pos hhigh]
    rfl

theorem hexDigit?_hexChar : ∀ n < 16, hexDigit? (hexChar n) = some n := by decide

theorem toList_hexByte (b : UInt8) :
    (hexByte b).toList = [hexChar (b.toNat / 16), hexChar (b.toNat % 16)] :=
  hex_of_lt b.toNat_lt

theorem byteOf_hexChar (b : UInt8) :
    byteOf (hexChar (b.toNat / 16)) (hexChar (b.toNat % 16)) = b := by
  have hlt := b.toNat_lt
  have hhigh := hexDigit?_hexChar (b.toNat / 16) (by omega)
  have hlow := hexDigit?_hexChar (b.toNat % 16) (by omega)
  simp only [byteOf, hexValue, List.foldl_cons, List.foldl_nil, hhigh, hlow, Option.getD_some]
  rw [Nat.mul_zero, Nat.zero_add, Nat.div_add_mod, UInt8.ofNat_toNat]

theorem isHexDigit_hexChar {n : Nat} (h : n < 16) : isHexDigit (hexChar n) := by
  rw [isHexDigit, hexDigit?_hexChar n h]
  rfl

end Text

/-! ### What a row shows -/

namespace Listing

open Text

/-- The line of a listing begins with the address and the bytes: `[AA] b₀ b₁ ... | ...`. -/
def Codes (line : String) (address : UInt8) (bytes : List UInt8) : Prop :=
  ∃ k rest, line = "[" ++ hexByte address ++ "] " ++ String.join (bytes.map (hexByte · ++ " ")) ++
    String.ofList (List.replicate k ' ') ++ "| " ++ rest

/-- The line of a listing shows a byte at the address. -/
def Covers (line : String) (x : Nat) : Prop :=
  ∃ address bytes, Codes line address bytes ∧
    address.toNat ≤ x ∧ x < address.toNat + bytes.length

/-- The line of a listing goes on so after the columns of the code. -/
def Carries (line body : String) : Prop :=
  ∃ code : String, code.length = 17 ∧ line = code ++ "| " ++ body

/-- Pairs of digits, each with a space after it. -/
def readBytes : List Char → List UInt8
  | high :: low :: ' ' :: cs => if isHexDigit high then byteOf high low :: readBytes cs else []
  | _ => []

/-- Address and bytes of a line of a listing. -/
def readCode? : List Char → Option (UInt8 × List UInt8)
  | '[' :: high :: low :: ']' :: ' ' :: cs => some (byteOf high low, readBytes cs)
  | _ => none

theorem readBytes_of_not_digit {c : Char} (h : isHexDigit c = false) (cs : List Char) :
    readBytes (c :: cs) = [] := by
  unfold readBytes
  split
  · next heq =>
    cases heq
    simp [h]
  · rfl

theorem readBytes_append {rest : List Char} (h : readBytes rest = []) (bytes : List UInt8) :
    readBytes (bytes.flatMap (fun b => (hexByte b).toList ++ [' ']) ++ rest) = bytes := by
  induction bytes with
  | nil => exact h
  | cons b bytes ih =>
    have hlt := b.toNat_lt
    have hdigit : isHexDigit (hexChar (b.toNat / 16)) := isHexDigit_hexChar (by omega)
    rw [List.flatMap_cons, toList_hexByte]
    simp only [List.cons_append, List.nil_append, readBytes, hdigit, if_true, byteOf_hexChar, ih]

/-- Address and bytes are read back from a line that begins with them. -/
theorem Codes.readCode?_eq {line : String} {address : UInt8} {bytes : List UInt8}
    (h : Codes line address bytes) : readCode? line.toList = some (address, bytes) := by
  obtain ⟨k, rest, rfl⟩ := h
  have hrest : readBytes (List.replicate k ' ' ++ '|' :: ' ' :: rest.toList) = [] := by
    cases k with
    | zero => exact readBytes_of_not_digit (by decide) _
    | succ k => exact readBytes_of_not_digit (by decide) _
  have htext : ("[" ++ hexByte address ++ "] " ++ String.join (bytes.map (hexByte · ++ " ")) ++
      String.ofList (List.replicate k ' ') ++ "| " ++ rest).toList =
        '[' :: hexChar (address.toNat / 16) :: hexChar (address.toNat % 16) :: ']' :: ' ' ::
          (bytes.flatMap (fun b => (hexByte b).toList ++ [' ']) ++
            (List.replicate k ' ' ++ '|' :: ' ' :: rest.toList)) := by
    simp [toList_hexByte address, List.flatMap_map]
  rw [htext, readCode?, byteOf_hexChar, readBytes_append hrest]

/-- A line shows one address and one list of bytes. -/
theorem Codes.unique {line : String} {address address' : UInt8} {bytes bytes' : List UInt8}
    (h : Codes line address bytes) (h' : Codes line address' bytes') :
    address = address' ∧ bytes = bytes' := by
  have heq := h.readCode?_eq.symm.trans h'.readCode?_eq
  exact Prod.mk.inj (Option.some.inj heq)

end Listing

namespace ListingRow

open Text Listing

variable {r : ListingRow}

/-- The row has its columns: at most four bytes, from an address of two digits on. -/
structure InColumns (r : ListingRow) : Prop where
  bytes : r.bytes.length ≤ 4
  address : r.address < 256

theorem InColumns.toNat_address (h : r.InColumns) :
    (UInt8.ofNat r.address).toNat = r.address := by
  rw [UInt8.toNat_ofNat']
  exact Nat.mod_eq_of_lt h.address

/-- The addresses of the bytes of the row. -/
def addresses (r : ListingRow) : List Nat :=
  List.range' r.address r.bytes.length

/-- The code of a row and one space are address and bytes, each byte with a space after it. -/
theorem code_append_space (hne : r.bytes ≠ []) (h : r.address < 256) :
    r.code.toList ++ [' '] =
      '[' :: hexChar (r.address / 16) :: hexChar (r.address % 16) :: ']' :: ' ' ::
        r.bytes.flatMap (fun b => (hexByte b).toList ++ [' ']) := by
  obtain ⟨init, b, hbytes⟩ := (List.eq_nil_or_concat' r.bytes).resolve_left hne
  have hjoin : (" ".intercalate (r.bytes.map hexByte)).toList =
      init.flatMap (fun b => (hexByte b).toList ++ [' ']) ++ (hexByte b).toList := by
    rw [String.toList_intercalate, hbytes, List.map_append, List.map_append, List.map_singleton,
      List.map_singleton, intercalate_concat, List.flatMap_map, List.flatMap_map]
    rfl
  rw [code, if_neg hne, String.toList_append, hjoin, hbytes]
  simp [hex_of_lt h]

theorem length_code (hne : r.bytes ≠ []) (h : r.address < 256) :
    r.code.toList.length = 3 * r.bytes.length + 4 := by
  have hcode := congrArg List.length (code_append_space hne h)
  have hbytes : (r.bytes.flatMap fun b => (hexByte b).toList ++ [' ']).length =
      3 * r.bytes.length := by
    simp [List.length_flatMap, toList_hexByte, Nat.mul_comm]
  simp only [List.length_append, List.length_cons, List.length_nil, hbytes] at hcode
  omega

/-- A row with bytes begins with its address and its bytes. -/
theorem InColumns.codes (h : r.InColumns) (hne : r.bytes ≠ []) :
    Codes r.text (UInt8.ofNat r.address) r.bytes := by
  have hlen := length_code hne h.address
  have hbytes := h.bytes
  have hpad : padRight 17 r.code.toList =
      r.code.toList ++ [' '] ++ List.replicate (16 - r.code.toList.length) ' ' := by
    have hwidth : 17 - r.code.toList.length = (16 - r.code.toList.length) + 1 := by omega
    rw [padRight, hwidth, List.replicate_succ]
    simp
  refine ⟨16 - r.code.toList.length, r.body, ?_⟩
  apply String.toList_inj.mp
  rw [text, hpad, code_append_space hne h.address]
  simp [toList_hexByte (UInt8.ofNat r.address), h.toNat_address, List.flatMap_map]

/-- A row without bytes begins with no address. -/
theorem not_codes (h : r.bytes = []) (address : UInt8) (bytes : List UInt8) :
    ¬Codes r.text address bytes := by
  intro hcodes
  have hread := hcodes.readCode?_eq
  have htext : r.text.toList = ' ' :: (List.replicate 16 ' ' ++ '|' :: ' ' :: r.body.toList) := by
    simp [text, code, h, padRight, List.replicate_succ]
  rw [htext] at hread
  simp [readCode?] at hread

/-- The source line stands behind the columns of the code. -/
theorem InColumns.carries (h : r.InColumns) : Carries r.text r.body := by
  refine ⟨String.ofList (padRight 17 r.code.toList), ?_, rfl⟩
  rw [← String.length_toList, String.toList_ofList, padRight, List.length_append,
    List.length_replicate]
  by_cases hne : r.bytes = []
  · simp [code, hne]
  · have hlen := length_code hne h.address
    have hbytes := h.bytes
    omega

/-- A line shows bytes at the addresses of its row. -/
theorem InColumns.covers_iff (h : r.InColumns) {x : Nat} : Covers r.text x ↔ x ∈ r.addresses := by
  rw [addresses, List.mem_range'_1]
  by_cases hne : r.bytes = []
  · constructor
    · rintro ⟨address, bytes, hcodes, -⟩
      exact absurd hcodes (not_codes hne address bytes)
    · rintro ⟨hle, hlt⟩
      simp only [hne, List.length_nil] at hlt
      omega
  · have hcodes := h.codes hne
    constructor
    · rintro ⟨address, bytes, hcodes', hle, hlt⟩
      obtain ⟨rfl, rfl⟩ := hcodes.unique hcodes'
      rw [h.toNat_address] at hle hlt
      exact ⟨hle, hlt⟩
    · rintro ⟨hle, hlt⟩
      refine ⟨_, _, hcodes, ?_⟩
      rw [h.toNat_address]
      exact ⟨hle, hlt⟩

end ListingRow

end Asm8
