import Asm8.Proofs.Opcodes

/-!
Which texts are instruction tables.

A text lists rows, one per line that holds one, whatever blanks stand around a line and whatever its
number is. Where no mnemonic lists a shape twice, nor the bare mnemonic beside operands, the sum of
bits tells the shapes, so that the text is a table exactly when each mnemonic lists the shapes of
some group, and every shape of the group then has a row:

    text ── lines ──▶ rows ──▶ mnemonic {REG, |REG|} = shapes of a group ──▶ table, every shape with
                               mnemonic {OFFSET, REG} = no group         ──▶ refused     an opcode
-/

namespace Asm8

/-! ### Rows of a text -/

/-- Reading a list item by item succeeds when every item can be read. -/
theorem mapM_eq_ok_iff {ε α β : Type} {f : α → Except ε β} {xs : List α} {ys : List β} :
    xs.mapM f = .ok ys ↔ List.Forall₂ (fun x y => f x = .ok y) xs ys := by
  induction xs generalizing ys with
  | nil =>
    rw [List.mapM_nil, List.forall₂_nil_left_iff]
    exact ⟨fun h => (Except.ok.inj h).symm, fun h => by rw [h]; rfl⟩
  | cons x xs ih =>
    rw [List.mapM_cons, bind_ok_iff, List.forall₂_cons_left_iff]
    constructor
    · rintro ⟨y, hy, hrest⟩
      obtain ⟨zs, hzs, hok⟩ := bind_ok_iff.mp hrest
      exact ⟨y, zs, hy, ih.mp hzs, (Except.ok.inj hok).symm⟩
    · rintro ⟨y, zs, hy, hzs, rfl⟩
      exact ⟨y, hy, bind_ok_iff.mpr ⟨zs, ih.mpr hzs, rfl⟩⟩

/-- The number of a line is only reported. -/
theorem Row.ofLine_eq_ok_congr (n n' : Nat) (s : String) (r : Row) :
    ofLine n s = .ok r ↔ ofLine n' s = .ok r := by
  unfold ofLine
  split
  · next entry opcode pattern _ _ =>
    unfold ofFields
    dsimp only
    split
    · simp
    · split
      · simp
      · split <;> simp
  · simp

theorem Group.ofSignature?_signature (g : Group) : ofSignature? g.signature = some g := by
  cases g <;> decide

namespace Table

/-- The rows that a text lists, if each of its lines is blank, a comment or well formed. -/
def listed (text : String) : Except TableError (List Row) :=
  (rowLines text).mapM fun (line, number) => Row.ofLine number line

/-- What a trimmed line says about a row: nothing, if it is blank or a comment. -/
def rowText? (line : String) : Option String :=
  if line.toList = [] ∨ line.toList.take 2 = ['/', '/'] then none else some (Text.upper line)

theorem map_fst_rowLines (text : String) :
    (rowLines text).map Prod.fst = ((Text.lines text).map Text.trim).filterMap rowText? := by
  have hfst : ∀ (ls : List String) (n : Nat), (ls.zipIdx n).map Prod.fst = ls := by
    intro ls n
    simp
  conv_rhs => rw [← hfst (Text.lines text) 1, List.map_map, List.filterMap_map]
  rw [rowLines, List.map_filterMap]
  refine List.filterMap_congr fun p _ => ?_
  simp only [Function.comp, rowText?, Text.trim, String.toList_ofList]
  split <;> rfl

/-- The rows of a text are those of its trimmed lines. -/
theorem listed_eq_ok_iff {text : String} {rows : List Row} :
    listed text = .ok rows ↔ List.Forall₂ (fun line row => Row.ofLine 0 line = .ok row)
      (((Text.lines text).map Text.trim).filterMap rowText?) rows := by
  rw [← map_fst_rowLines, List.forall₂_map_left_iff, listed, mapM_eq_ok_iff]
  have hcongr : ∀ (p : String × Nat) (row : Row),
      Row.ofLine p.2 p.1 = .ok row ↔ Row.ofLine 0 p.1 = .ok row :=
    fun p row => Row.ofLine_eq_ok_congr _ _ _ _
  exact ⟨List.Forall₂.imp fun p row => (hcongr p row).mp,
    List.Forall₂.imp fun p row => (hcongr p row).mpr⟩

/-! ### The row of `END` -/

variable {t : Table} {m : String} {g : Group} {s : Shape}

theorem any_mnemonic : t.rows.any (·.mnemonic = m) = !(t.variants m).isEmpty := by
  rw [Bool.eq_iff_iff]
  simp [variants, List.filter_eq_nil_iff]

theorem group?_eq (t : Table) (m : String) :
    t.group? m = if t.variants m = [] then none else Group.ofSignature? (t.signature m) := by
  rw [group?, any_mnemonic]
  by_cases h : t.variants m = [] <;> simp [h]

theorem variants_concat (rows : List Row) (row : Row) (m : String) :
    variants ⟨rows ++ [row]⟩ m = variants ⟨rows⟩ m ++ if row.mnemonic = m then [row] else [] := by
  rw [variants, variants, List.filter_append]
  by_cases h : row.mnemonic = m <;> simp [h]

theorem variants_withEnd (t : Table) (m : String) :
    t.withEnd.variants m =
      if m = endMnemonic ∧ t.variants endMnemonic = [] then [Row.ofEnd] else t.variants m := by
  have hrow : Row.ofEnd.mnemonic = endMnemonic := rfl
  rw [withEnd, any_mnemonic]
  by_cases h : t.variants endMnemonic = []
  · rw [if_neg (by simp [h]), variants_concat, hrow]
    by_cases hm : m = endMnemonic
    · rw [hm, if_pos rfl, if_pos ⟨rfl, h⟩, h]
      rfl
    · rw [if_neg (Ne.symm hm), if_neg fun hboth => hm hboth.1, List.append_nil]
  · rw [if_pos (by simp [h]), if_neg fun hboth => h hboth.2]

theorem signature_congr {t' : Table} (h : t'.variants m = t.variants m) :
    t'.signature m = t.signature m := by
  rw [signature, signature, h]

/-- A row for `END` leaves the groups of the other mnemonics. -/
theorem group?_withEnd (hne : t.variants m ≠ []) : t.withEnd.group? m = t.group? m := by
  have hvariants : t.withEnd.variants m = t.variants m := by
    rw [variants_withEnd, if_neg]
    rintro ⟨rfl, hnil⟩
    exact hne hnil
  rw [group?_eq, group?_eq, hvariants, signature_congr hvariants]

theorem plain_withEnd (h : ∀ m, t.Plain m) (m : String) : t.withEnd.Plain m := by
  have hvariants := variants_withEnd t m
  split at hvariants
  · refine ⟨by rw [hvariants]; simp, fun row hrow _ => ?_⟩
    rw [hvariants] at hrow ⊢
    rw [List.mem_singleton.mp hrow]
  · exact ⟨by rw [hvariants]; exact (h m).nodup, by rw [hvariants]; exact (h m).alone⟩

/-! ### Groups of plain mnemonics -/

/-- The rows of a plain mnemonic list every shape once. -/
theorem Plain.perm_shapes (h : t.Plain m)
    (hshapes : ∀ s, s ∈ g.shapes ↔ s ∈ (t.variants m).map Row.shape) :
    g.shapes.Perm ((t.variants m).map Row.shape) :=
  (List.perm_ext_iff_of_nodup g.nodup_shapes h.nodup).mpr hshapes

/-- The group of a plain mnemonic is the one that has the shapes of its rows. -/
theorem Plain.group?_eq_some_iff (h : t.Plain m) (hne : t.variants m ≠ []) :
    t.group? m = some g ↔ ∀ s, s ∈ g.shapes ↔ s ∈ (t.variants m).map Row.shape := by
  constructor
  · intro hg s
    exact h.mem_shapes_iff hg
  · intro hshapes
    have hsum : g.signature = t.signature m := Shape.sumOfBits_perm (h.perm_shapes hshapes)
    rw [group?_eq, if_neg hne, ← hsum, Group.ofSignature?_signature]

theorem mem_mnemonics : m ∈ t.mnemonics ↔ t.variants m ≠ [] := by
  simp [mnemonics, variants, List.filter_eq_nil_iff]

theorem misfit?_eq_none_iff :
    t.misfit? = none ↔ ∀ m, t.variants m ≠ [] → ∃ g, t.group? m = some g := by
  rw [misfit?, List.find?_eq_none]
  refine forall_congr' fun m => ?_
  rw [mem_mnemonics]
  refine imp_congr_right fun hne => ?_
  rw [group?_eq, if_neg hne]
  cases Group.ofSignature? (t.signature m) <;> simp

/-- A text that lists rows is a table if all mnemonics have a group. -/
theorem read_eq_ok_iff {text : String} {rows : List Row} (h : listed text = .ok rows) :
    read text = .ok t ↔ misfit? ⟨rows⟩ = none ∧ t = withEnd ⟨rows⟩ := by
  rw [read, bind_ok_iff]
  constructor
  · rintro ⟨rows', hrows', hok⟩
    cases h.symm.trans hrows'
    cases hm : misfit? ⟨rows⟩ with
    | some m => simp [hm] at hok
    | none => simpa [hm, eq_comm] using hok
  · rintro ⟨hm, rfl⟩
    exact ⟨rows, h, by simp [hm]⟩

/-- Every shape of a plain mnemonic's group has a row. -/
theorem Plain.exists_opcode (h : t.Plain m) (hg : t.group? m = some g) (hs : s ∈ g.shapes) :
    ∃ b, t.opcode? m s = some b := by
  obtain ⟨row, hrow, hshape⟩ := List.mem_map.mp ((h.mem_shapes_iff hg).mp hs)
  obtain ⟨hmem, hm⟩ := mem_variants.mp hrow
  obtain ⟨found, hfound⟩ := Option.isSome_iff_exists.mp
    (List.find?_isSome.mpr ⟨row, hmem, by simp [hm, hshape]⟩ :
      (t.rows.find? fun r => r.mnemonic = m && r.shape = s).isSome)
  exact ⟨found.opcode, by rw [opcode?, hfound]; rfl⟩

end Table

end Asm8
