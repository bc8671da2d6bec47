import Asm8.Proofs.Resolution

/-!
Names are looked up among all that was recorded so far.

Labels and operands that name them are recorded in any order, and names that differ in case are one
name. The first label of a name counts, whatever comes after it:

    place       0          1            2           3             4
    recorded    →straße    Straße: 10   →STRASSE    strasse: 20   →end

All names but the last have the key STRASSE, whose address is 10, and `end` has no address yet.

A search through the entries finds it. So does a directory that takes down the place of a label when
its key comes for the first time: it is carried along with the entries, one call after the other, and
never disagrees with the search.
-/

namespace Asm8

/-- What can be recorded: a label, or an operand that names one. -/
inductive Call where
  | define (name : String) (address line : Nat)
  | refer (name : String) (mode : Mode) (address line : Nat)
  deriving DecidableEq

/-- The entry that a call leaves. -/
def Call.symbol : Call → Symbol
  | define name address line => ⟨name, .definition, address, line⟩
  | refer name mode address line => ⟨name, .reference mode, address, line⟩

/-- The entry is a definition of the key. -/
def Symbol.Defines (e : Symbol) (key : String) : Prop :=
  e.role = .definition ∧ e.key = key

instance (e : Symbol) (key : String) : Decidable (e.Defines key) :=
  inferInstanceAs (Decidable (_ ∧ _))

namespace Symbols

/-- Record a label or an operand. -/
def record (ss : Symbols) : Call → Symbols
  | .define name address line => ss.define name address line
  | .refer name mode address line => ss.refer name mode address line

/-- Record one call after the other. -/
def recordAll (ss : Symbols) (calls : List Call) : Symbols :=
  calls.foldl record ss

@[simp] theorem recordAll_cons (ss : Symbols) (c : Call) (calls : List Call) :
    ss.recordAll (c :: calls) = (ss.record c).recordAll calls := rfl

@[simp] theorem entries_record (ss : Symbols) (c : Call) :
    (ss.record c).entries = ss.entries ++ [c.symbol] := by
  cases c <;> rfl

theorem entries_recordAll (calls : List Call) : ∀ ss : Symbols,
    (ss.recordAll calls).entries = ss.entries ++ calls.map Call.symbol := by
  induction calls with
  | nil => intro ss; simp [recordAll]
  | cons c calls ih =>
    intro ss
    rw [recordAll_cons, ih, entries_record, List.append_assoc]
    rfl

/-! ### First definitions -/

/-- The entry at this place is the first definition of the key. -/
structure FirstAt (ss : Symbols) (key : String) (i : Nat) (e : Symbol) : Prop where
  entry : ss.entries[i]? = some e
  defines : e.Defines key
  first : ∀ j < i, ∀ f, ss.entries[j]? = some f → ¬f.Defines key

variable {ss : Symbols} {key name : String} {i : Nat} {e : Symbol} {c : Call}

theorem FirstAt.lt (h : ss.FirstAt key i e) : i < ss.entries.length :=
  (List.getElem?_eq_some_iff.mp h.entry).1

theorem FirstAt.mem (h : ss.FirstAt key i e) : e ∈ ss.entries :=
  List.mem_of_getElem? h.entry

/-- Searching the entries for a definition of the key stops at the first one. -/
theorem find?_defines_eq_some_iff :
    (ss.entries.find? fun e => decide (e.Defines key)) = some e ↔ ∃ i, ss.FirstAt key i e := by
  rw [List.find?_eq_some_iff_getElem]
  constructor
  · rintro ⟨hdefines, i, hi, rfl, hfirst⟩
    refine ⟨i, List.getElem?_eq_getElem hi, of_decide_eq_true hdefines, fun j hj f hf => ?_⟩
    obtain ⟨hj', rfl⟩ := List.getElem?_eq_some_iff.mp hf
    simpa using hfirst j hj
  · rintro ⟨i, h⟩
    obtain ⟨hi, heq⟩ := List.getElem?_eq_some_iff.mp h.entry
    refine ⟨decide_eq_true h.defines, i, hi, heq, fun j hj => ?_⟩
    simpa using h.first j hj _ (List.getElem?_eq_getElem (Nat.lt_trans hj hi))

theorem definition?_eq_some_iff :
    ss.definition? name = some e ↔ ∃ i, ss.FirstAt (Text.upper name) i e := by
  rw [definition?, definitions, List.find?_filter, ← find?_defines_eq_some_iff]
  simp only [Symbol.isDefinition, Symbol.Defines, decide_eq_true_eq]
  rfl

/-- A key that is defined has a first definition. -/
theorem exists_firstAt_iff :
    (∃ i e, ss.FirstAt key i e) ↔ ∃ e ∈ ss.entries, e.Defines key := by
  constructor
  · rintro ⟨i, e, h⟩
    exact ⟨e, h.mem, h.defines⟩
  · rintro ⟨e, he, hdefines⟩
    have hfound : (ss.entries.find? fun e => decide (e.Defines key)).isSome :=
      List.find?_isSome.mpr ⟨e, he, decide_eq_true hdefines⟩
    obtain ⟨f, hf⟩ := Option.isSome_iff_exists.mp hfound
    obtain ⟨i, hi⟩ := find?_defines_eq_some_iff.mp hf
    exact ⟨i, f, hi⟩

theorem isDefined_iff :
    ss.isDefined name ↔ ∃ e ∈ ss.entries, e.Defines (Text.upper name) := by
  rw [← exists_firstAt_iff, isDefined, Option.isSome_iff_exists, exists_comm]
  exact exists_congr fun e => definition?_eq_some_iff

/-- The first definition of a key stays the first, whatever is recorded. -/
theorem FirstAt.record (h : ss.FirstAt key i e) (c : Call) : (ss.record c).FirstAt key i e := by
  have hkept : ∀ j ≤ i, (ss.record c).entries[j]? = ss.entries[j]? := fun j hj => by
    rw [entries_record, List.getElem?_append_left (Nat.lt_of_le_of_lt hj h.lt)]
  refine ⟨(hkept i (Nat.le_refl i)).trans h.entry, h.defines, fun j hj f hf => ?_⟩
  exact h.first j hj f ((hkept j (Nat.le_of_lt hj)).symm.trans hf)

theorem FirstAt.recordAll : ∀ {calls : List Call} {ss : Symbols}, ss.FirstAt key i e →
    (ss.recordAll calls).FirstAt key i e
  | [], _, h => h
  | c :: _, _, h => (h.record c).recordAll

/-- A definition is the first one of its key if none is recorded before it. -/
theorem firstAt_record_iff : (ss.record c).FirstAt key i e ↔ ss.FirstAt key i e ∨
    i = ss.entries.length ∧ e = c.symbol ∧ e.Defines key ∧ ∀ f ∈ ss.entries, ¬f.Defines key := by
  constructor
  · intro h
    have hentry := h.entry
    rw [entries_record] at hentry
    -- the new entry stands behind all others, so the place tells whether it is the one
    by_cases hi : i < ss.entries.length
    · rw [List.getElem?_append_left hi] at hentry
      refine .inl ⟨hentry, h.defines, fun j hj f hf => h.first j hj f ?_⟩
      rw [entries_record, List.getElem?_append_left (Nat.lt_trans hj hi)]
      exact hf
    · have hlast : i = ss.entries.length := by
        have hlt := h.lt
        rw [entries_record, List.length_append, List.length_singleton] at hlt
        omega
      subst hlast
      rw [List.getElem?_concat_length, Option.some.injEq] at hentry
      refine .inr ⟨rfl, hentry.symm, h.defines, fun f hf => ?_⟩
      obtain ⟨j, hj, rfl⟩ := List.getElem_of_mem hf
      refine h.first j hj _ ?_
      rw [entries_record, List.getElem?_append_left hj, List.getElem?_eq_getElem hj]
  · rintro (h | ⟨rfl, rfl, hdefines, hnone⟩)
    · exact h.record c
    · refine ⟨by rw [entries_record, List.getElem?_concat_length], hdefines, fun j hj f hf => ?_⟩
      rw [entries_record, List.getElem?_append_left hj] at hf
      exact hnone f (List.mem_of_getElem? hf)

end Symbols

/-! ### A directory of places -/

/-- A definition is entered under its key at a place, unless the key has a place already. -/
def Call.enter (places : Std.HashMap String Nat) (place : Nat) : Call → Std.HashMap String Nat
  | define name _ _ => places.insertIfNew (Text.upper name) place
  | refer .. => places

theorem Call.getElem?_enter_eq_some_iff {places : Std.HashMap String Nat} {place i : Nat} {c : Call}
    {key : String} : (c.enter places place)[key]? = some i ↔
      places[key]? = some i ∨ i = place ∧ c.symbol.Defines key ∧ places[key]? = none := by
  cases c with
  | define name address line =>
    have hdefines : (define name address line).symbol.Defines key ↔ Text.upper name = key :=
      and_iff_right rfl
    rw [enter, Std.HashMap.getElem?_insertIfNew, hdefines]
    by_cases hkey : Text.upper name = key
    · subst hkey
      simp only [Std.HashMap.mem_iff_isSome_getElem?]
      cases places[Text.upper name]? <;> simp [eq_comm]
    · simp [hkey]
  | refer name mode address line =>
    have hdefines : ¬(refer name mode address line).symbol.Defines key := fun h => nomatch h.1
    simp [enter, hdefines]

/-- Symbols with a directory, which holds the place of the first definition of every key. -/
structure Directory where
  symbols : Symbols
  places : Std.HashMap String Nat
  inStep : ∀ key i, places[key]? = some i ↔ ∃ e, symbols.FirstAt key i e

namespace Directory

/-- Nothing recorded. -/
def empty : Directory where
  symbols := .empty
  places := ∅
  inStep key i := by
    have hnone : ¬∃ e, Symbols.empty.FirstAt key i e := fun ⟨e, h⟩ => nomatch h.mem
    simp [hnone]

theorem getElem?_places_eq_none_iff (d : Directory) (key : String) :
    d.places[key]? = none ↔ ∀ e ∈ d.symbols.entries, ¬e.Defines key := by
  have hsome : (∃ i, d.places[key]? = some i) ↔ ∃ e ∈ d.symbols.entries, e.Defines key := by
    simp only [d.inStep, Symbols.exists_firstAt_iff]
  rw [← not_iff_not, ← ne_eq, Option.ne_none_iff_exists', hsome]
  simp only [not_forall, not_not, exists_prop]

/-- A call is recorded behind all entries, and entered with this place. -/
def record (d : Directory) (c : Call) : Directory where
  symbols := d.symbols.record c
  places := c.enter d.places d.symbols.entries.length
  inStep key i := by
    simp only [Call.getElem?_enter_eq_some_iff, Symbols.firstAt_record_iff, exists_or, d.inStep,
      d.getElem?_places_eq_none_iff, exists_and_left, exists_eq_left]

/-- Record one call after the other. -/
def recordAll (d : Directory) (calls : List Call) : Directory :=
  calls.foldl record d

theorem symbols_recordAll : ∀ (calls : List Call) (d : Directory),
    (d.recordAll calls).symbols = d.symbols.recordAll calls
  | [], _ => rfl
  | c :: calls, d => symbols_recordAll calls (d.record c)

/-- Whether the key of a name has a place. -/
def isDefined (d : Directory) (name : String) : Bool :=
  d.places.contains (Text.upper name)

/-- The address of the entry at the place of the key of a name. -/
def address? (d : Directory) (name : String) : Option Nat := do
  let place ← d.places[Text.upper name]?
  let e ← d.symbols.entries[place]?
  return e.address

theorem isDefined_eq (d : Directory) (name : String) :
    d.isDefined name = d.symbols.isDefined name := by
  rw [Bool.eq_iff_iff, Symbols.isDefined_iff, ← Symbols.exists_firstAt_iff, isDefined,
    Std.HashMap.contains_eq_isSome_getElem?, Option.isSome_iff_exists]
  simp only [d.inStep]

theorem address?_eq (d : Directory) (name : String) : d.address? name = d.symbols.address? name := by
  cases hplace : d.places[Text.upper name]? with
  | none =>
    have hundefined : d.symbols.isDefined name = false := by
      rw [← isDefined_eq, isDefined, Std.HashMap.contains_eq_isSome_getElem?, hplace]
      rfl
    rw [Symbols.isDefined, Option.isSome_eq_false_iff, Option.isNone_iff_eq_none] at hundefined
    simp [address?, hplace, Symbols.address?, hundefined]
  | some i =>
    obtain ⟨e, he⟩ := (d.inStep _ _).mp hplace
    have hfound : d.symbols.definition? name = some e := Symbols.definition?_eq_some_iff.mpr ⟨i, he⟩
    simp [address?, hplace, Symbols.address?, hfound, he.entry]

end Directory

/-! ### Definitions and references apart -/

namespace Symbols

/-- The entries are shared out between definitions and references: the definitions stand at the
places `ds`, the references at all other places, and both are in the order of their places. -/
structure Shared (ss : Symbols) (ds : List Nat) : Prop where
  definitions_at : ss.definitions.map some = ds.map (ss.entries[·]?)
  references_at : ∀ r ∈ ss.references, ss.entries[r.2]? = some r.1
  definitions_increase : ds.Pairwise (· < ·)
  references_increase : (ss.references.map Prod.snd).Pairwise (· < ·)
  all_places : (ds ++ ss.references.map Prod.snd).Perm (List.range ss.entries.length)
  definitions_role : ∀ e ∈ ss.definitions, e.role = .definition
  references_role : ∀ r ∈ ss.references, r.1.role ≠ .definition

/-- The places of the definitions. -/
def definitionPlaces (ss : Symbols) : List Nat :=
  (ss.entries.zipIdx.filter (·.1.isDefinition)).map Prod.snd

theorem shared_definitionPlaces (ss : Symbols) : ss.Shared ss.definitionPlaces where
  definitions_at := by
    rw [definitionPlaces, List.map_map, Link.definitions_eq_map_fst, List.map_map]
    refine List.map_congr_left fun p hp => ?_
    exact (List.mem_zipIdx_iff_getElem?.mp (List.mem_filter.mp hp).1).symm
  references_at r hr := (Link.mem_references_iff.mp hr).1
  definitions_increase := List.pairwise_map.mpr ((Link.pairwise_zipIdx ss.entries).filter _)
  references_increase := List.pairwise_map.mpr ((Link.pairwise_zipIdx ss.entries).filter _)
  all_places := by
    rw [definitionPlaces, references, ← List.map_append, List.range_eq_range',
      ← List.zipIdx_map_snd]
    exact (List.filter_append_perm _ _).map _
  definitions_role e he := by
    simpa [Symbol.isDefinition] using (List.mem_filter.mp he).2
  references_role r hr := (Link.mem_references_iff.mp hr).2

/-! ### Lookups after any calls -/

/-- The call is a reference, or defines a name that is defined already. -/
def repeats (ss : Symbols) : Call → Bool
  | .define name _ _ => ss.isDefined name
  | .refer .. => true

variable {ss : Symbols} {name : String} {c : Call}

theorem address?_recordAll (h : ss.isDefined name) (calls : List Call) :
    (ss.recordAll calls).address? name = ss.address? name := by
  obtain ⟨e, he⟩ := Option.isSome_iff_exists.mp h
  obtain ⟨i, hi⟩ := definition?_eq_some_iff.mp he
  have hkept : (ss.recordAll calls).definition? name = some e :=
    definition?_eq_some_iff.mpr ⟨i, hi.recordAll⟩
  rw [address?, hkept, address?, he]

/-- Only the first definition of a key changes what is found under a name. -/
theorem definition?_record_of_repeats (h : ss.repeats c) (name : String) :
    (ss.record c).definition? name = ss.definition? name := by
  refine Option.ext fun e => ?_
  simp only [definition?_eq_some_iff, firstAt_record_iff]
  refine exists_congr fun i => or_iff_left ?_
  rintro ⟨-, rfl, hdefines, hnone⟩
  cases c with
  | define name' address line =>
    obtain ⟨f, hf, hf'⟩ := isDefined_iff.mp h
    refine hnone f hf ⟨hf'.1, hf'.2.trans hdefines.2⟩
  | refer name' mode address line => cases hdefines.1

/-- Whatever labels and operands are recorded, the entries are the calls in order. A name has the
address of the first label with its key, and none exactly if it is not defined, which is if no label has
its key; a directory of places gives the same answers. Definitions and references share the entries
between them, in order. And once a name is defined, its address is there to stay; a reference, or a
label that was there before, does not change the address of any name. -/
theorem recordAll_lookup (calls : List Call) :
    let ss := empty.recordAll calls
    let d := Directory.empty.recordAll calls
    ss.entries = calls.map Call.symbol ∧
      (∀ name address, ss.address? name = some address ↔
        ∃ i e, ss.FirstAt (Text.upper name) i e ∧ e.address = address) ∧
      (∀ name, ss.address? name = none ↔ ss.isDefined name = false) ∧
      (∀ name, ss.isDefined name = false ↔
        ∀ e ∈ ss.entries, e.role = .definition → e.key ≠ Text.upper name) ∧
      (d.symbols = ss ∧ ∀ name, d.isDefined name = ss.isDefined name ∧
        d.address? name = ss.address? name) ∧
      (∃ ds, ss.Shared ds) ∧
      (∀ name, ss.isDefined name → ∀ more, (ss.recordAll more).address? name = ss.address? name) ∧
      ∀ c, ss.repeats c → ∀ name, (ss.record c).address? name = ss.address? name := by
  intro ss d
  have hd : d.symbols = ss := Directory.symbols_recordAll calls .empty
  refine ⟨entries_recordAll calls empty, fun name address => ?_, fun name => ?_, fun name => ?_,
    ⟨hd, fun name => ?_⟩, ⟨_, shared_definitionPlaces ss⟩, fun name h => address?_recordAll h,
    fun c h name => ?_⟩
  · simp only [address?, Option.map_eq_some_iff, definition?_eq_some_iff]
    constructor
    · rintro ⟨e, ⟨i, hi⟩, haddress⟩
      exact ⟨i, e, hi, haddress⟩
    · rintro ⟨i, e, hi, haddress⟩
      exact ⟨e, ⟨i, hi⟩, haddress⟩
  · rw [address?, Option.map_eq_none_iff, isDefined, Option.isSome_eq_false_iff,
      Option.isNone_iff_eq_none]
  · rw [← Bool.not_eq_true, isDefined_iff]
    simp only [Symbol.Defines, not_exists, not_and]
  · rw [d.isDefined_eq, d.address?_eq, hd]
    exact ⟨rfl, rfl⟩
  · rw [address?, definition?_record_of_repeats h, address?]

/-- Labels and operands whose names are one name in upper case, and an operand without a label. -/
def streets : List Call :=
  [.refer "straße" .relative 0x01 1, .define "Straße" 0x10 2, .refer "STRASSE" .absolute 0x12 3,
   .define "strasse" 0x20 4, .refer "end" .relative 0x22 5]

/-- The first label counts, for the directory too, and another label of its name changes nothing. -/
theorem recordAll_lookup_streets :
    (empty.recordAll streets).address? "strasse" = some 0x10 ∧
    (Directory.empty.recordAll streets).address? "STRAßE" = some 0x10 ∧
    (empty.recordAll streets).address? "end" = none ∧
    (empty.recordAll streets).isDefined "STRASSE" ∧
    ((empty.recordAll streets).recordAll [.define "END" 0x30 6, .define "strasse" 0x31 7]).address?
      "STRASSE" = some 0x10 ∧
    (empty.recordAll streets).repeats (.define "STRAßE" 0x32 6) ∧
    ((empty.recordAll streets).record (.define "STRAßE" 0x32 6)).address? "end" = none := by
  obtain ⟨-, hfirst, hnone, -, ⟨-, hdirectory⟩, -, hstays, hrepeats⟩ := recordAll_lookup streets
  have haddress : ∀ name, Text.upper name = "STRASSE" →
      (empty.recordAll streets).address? name = some 0x10 := by
    intro name hname
    refine (hfirst name 0x10).mpr ⟨1, ⟨"Straße", .definition, 0x10, 2⟩, ?_, rfl⟩
    rw [hname]
    refine ⟨rfl, by decide, fun j hj f hf => ?_⟩
    obtain rfl : j = 0 := by omega
    cases hf
    decide
  have hdefined : (empty.recordAll streets).isDefined "STRASSE" := by decide
  have hend : (empty.recordAll streets).address? "end" = none :=
    (hnone "end").mpr (by decide)
  refine ⟨haddress _ (by decide), ?_, hend, hdefined, ?_, by decide, ?_⟩
  · rw [(hdirectory _).2, haddress _ (by decide)]
  · rw [hstays _ hdefined, haddress _ (by decide)]
  · rw [hrepeats _ (by decide), hend]

end Symbols

end Asm8
