import Asm8.Assembly
import Asm8.Proofs.Encoding

/-!
What linking does to the image of a replay that obeys the rules.

Every reference stands on a byte of its own, and every key has one label, so that serving all pairs
of a label and a reference touches each reference once. Linking that succeeds therefore turns the
image before linking, byte for byte, into the finished image of the replay: `Replay.Fits` becomes
`Replay.Links`.
-/

namespace Asm8

/-! ### Distances -/

namespace Link

/-- On 64 bits the distance is that of the addresses up to a multiple of the range. -/
theorem displacement_eq_bmod (target reference : Nat) :
    displacement target reference = ((target : Int) - reference + 1).bmod Int64.size := by
  have hone : (1 : Int64).toInt = 1 := by decide
  rw [displacement, Int64.toInt_add, Int64.toInt_sub, Int64.toInt_ofNat', Int64.toInt_ofNat', hone,
    Int.bmod_sub_bmod, Int.sub_bmod_bmod, Int.bmod_add_bmod]

/-- The last address of all lies right before the first. -/
example : displacement 0xFFFFFFFFFFFFFFFF 5 = -5 := by decide

/-- Below the middle of the range the distance is that of the addresses. -/
theorem displacement_eq {target reference : Nat} (ht : target < 0x7FFFFFFFFFFFFFFF)
    (hr : reference < 0x7FFFFFFFFFFFFFFF) :
    displacement target reference = (target : Int) - reference + 1 := by
  have hsize : Int64.size = 0x10000000000000000 := rfl
  rw [displacement_eq_bmod, hsize]
  apply Int.bmod_eq_of_le <;> omega

/-- The byte of a distance does not depend on the range. -/
theorem ofInt_displacement (target reference : Nat) :
    UInt8.ofInt (displacement target reference) =
      UInt8.ofInt ((target : Int) - reference + 1) := by
  have hdvd : (2 ^ 8 : Int) ∣ ((Int64.size : Nat) : Int) := by decide
  rw [displacement_eq_bmod, UInt8.ofInt, ← Int.emod_emod_of_dvd _ hdvd, Int.bmod_emod,
    Int.emod_emod_of_dvd _ hdvd, UInt8.ofInt]

/-! ### Marks -/

/-- Every definition with every reference of its key. -/
def pairs (ss : Symbols) : List (Symbol × Symbol) :=
  ss.definitions.flatMap fun label =>
    (ss.references.filter (·.1.key = label.key)).map fun r => (label, r.1)

/-- Serve pairs until one is out of reach. -/
def servePairs : List (Symbol × Symbol) → Image → Image × Option Diagnostic
  | [], m => (m, none)
  | (label, reference) :: rest, m =>
    match operandByte? label reference with
    | some b => servePairs rest (m.patch reference.address b)
    | none =>
      (m, some ⟨label.line,
        .unreachable label.key (displacement label.address reference.address)⟩)

/-- The first reference without a definition. -/
def unresolved? (ss : Symbols) : Option Diagnostic :=
  (ss.references.find? fun r => !ss.isDefined r.1.name).map fun r =>
    ⟨r.1.line, .unresolved r.1.key⟩

theorem map_tasks (ss : Symbols) : (tasks ss).map (fun t => (t.1, t.2.1)) = pairs ss := by
  simp only [tasks, pairs, List.map_flatMap, List.map_map]
  rfl

/-- The marks when all pairs are served. -/
def marked (ts : List (Symbol × Symbol × Nat)) (marks : List Bool) : List Bool :=
  ts.foldl (fun marks t => marks.set t.2.2 true) marks

/-- Marks are set on the way and do not change what is served. -/
theorem serve_eq (ts : List (Symbol × Symbol × Nat)) (m : Image) (marks : List Bool) :
    serve ts m marks =
      match servePairs (ts.map fun t => (t.1, t.2.1)) m with
      | (m', none) => (m', .ok (marked ts marks))
      | (m', some d) => (m', .error d) := by
  induction ts generalizing m marks with
  | nil => rfl
  | cons t ts ih =>
    rw [serve, List.map_cons, servePairs]
    cases operandByte? t.1 t.2.1 with
    | none => rfl
    | some b => exact ih _ _

/-- A mark stays, and the place of every task gets one. -/
theorem getD_marked (ts : List (Symbol × Symbol × Nat)) {marks : List Bool} {j : Nat}
    (hj : j < marks.length) :
    (marked ts marks).getD j false = true ↔
      marks.getD j false = true ∨ ∃ t ∈ ts, t.2.2 = j := by
  induction ts generalizing marks with
  | nil => simp [marked]
  | cons t ts ih =>
    have hcons : marked (t :: ts) marks = marked ts (marks.set t.2.2 true) := rfl
    rw [hcons, ih (by simpa using hj)]
    simp only [List.mem_cons, exists_eq_or_imp]
    by_cases hplace : t.2.2 = j
    · simp [hplace, hj]
    · simp [hplace]

theorem mem_references_iff {ss : Symbols} {u : Symbol} {j : Nat} :
    (u, j) ∈ ss.references ↔ ss.entries[j]? = some u ∧ u.role ≠ .definition := by
  simp [Symbols.references, List.mem_zipIdx_iff_getElem?, Symbol.isDefinition]

end Link

/-- Some label has the key of the symbol. -/
def Symbols.Labels (ss : Symbols) (u : Symbol) : Prop :=
  ∃ d ∈ ss.definitions, d.key = u.key

theorem Symbols.isDefined_iff_labels {ss : Symbols} {u : Symbol} :
    ss.isDefined u.name ↔ ss.Labels u := by
  rw [isDefined, definition?, List.find?_isSome]
  simp only [decide_eq_true_eq]
  rfl

namespace Link

/-- A place gets a mark exactly if the reference there has a label. -/
theorem getD_marked_tasks {ss : Symbols} {u : Symbol} {j : Nat} (h : (u, j) ∈ ss.references) :
    (marked (tasks ss) (List.replicate ss.entries.length false)).getD j false =
      ss.isDefined u.name := by
  obtain ⟨hu, -⟩ := mem_references_iff.mp h
  obtain ⟨hj, -⟩ := List.getElem?_eq_some_iff.mp hu
  rw [Bool.eq_iff_iff, getD_marked _ (by simpa using hj), Symbols.isDefined_iff_labels]
  simp only [tasks, List.mem_flatMap, List.mem_map, List.mem_filter, decide_eq_true_eq]
  constructor
  · rintro (hset | ⟨-, ⟨label, hlabel, ⟨v, k⟩, ⟨hv, hkey⟩, rfl⟩, rfl⟩)
    · simp [hj] at hset
    · obtain rfl : v = u := Option.some.inj ((mem_references_iff.mp hv).1.symm.trans hu)
      exact ⟨label, hlabel, hkey.symm⟩
  · rintro ⟨label, hlabel, hkey⟩
    exact .inr ⟨(label, u, j), ⟨label, hlabel, (u, j), ⟨h, hkey.symm⟩, rfl⟩, rfl⟩

/-- The first reference without a mark is the first one without a definition. -/
theorem unmarked?_marked (ss : Symbols) :
    unmarked? ss (marked (tasks ss) (List.replicate ss.entries.length false)) =
      unresolved? ss := by
  rw [unmarked?, unresolved?, ← List.head?_filter, ← List.head?_filter]
  congr 2
  refine List.filter_congr ?_
  rintro ⟨u, j⟩ hu
  rw [getD_marked_tasks hu]

end Link

/-- The marks tell what a search for each name would. -/
theorem link_eq (ss : Symbols) (m : Image) :
    link ss m =
      match Link.servePairs (Link.pairs ss) m with
      | (m', some d) => (m', some d)
      | (m', none) => (m', Link.unresolved? ss) := by
  rw [link, Link.serve_eq, Link.map_tasks]
  rcases Link.servePairs (Link.pairs ss) m with ⟨m', _ | d⟩
  · simp only [Link.unmarked?_marked]
  · rfl

/-! ### Symbols at other places -/

/-- The change leaves names and roles as they are; it may move symbols to other addresses or lines. -/
structure Symbol.Moves (f : Symbol → Symbol) : Prop where
  name : ∀ s, (f s).name = s.name
  role : ∀ s, (f s).role = s.role

namespace Symbol.Moves

variable {f : Symbol → Symbol} (hf : Symbol.Moves f) (s : Symbol)
include hf

theorem key : (f s).key = s.key := by
  rw [Symbol.key, hf.name, Symbol.key]

theorem isDefinition : (f s).isDefinition = s.isDefinition := by
  rw [Symbol.isDefinition, hf.role, Symbol.isDefinition]

end Symbol.Moves

namespace Symbols

/-- All symbols changed in the same way. -/
def map (f : Symbol → Symbol) (ss : Symbols) : Symbols :=
  ⟨ss.entries.map f⟩

variable {f : Symbol → Symbol} (hf : Symbol.Moves f) (ss : Symbols)
include hf

theorem definitions_map : (ss.map f).definitions = ss.definitions.map f := by
  simp only [map, definitions, List.filter_map, Function.comp_def, hf.isDefinition]

theorem uses_map : (ss.map f).uses = ss.uses.map f := by
  simp only [map, uses, List.filter_map, Function.comp_def, hf.isDefinition]

theorem references_map : (ss.map f).references = ss.references.map (Prod.map f id) := by
  simp only [map, references, List.zipIdx_map, List.filter_map, Function.comp_def, Prod.map_fst,
    hf.isDefinition]

theorem definition?_map (name : String) :
    (ss.map f).definition? name = (ss.definition? name).map f := by
  simp only [definition?, definitions_map hf, List.find?_map, Function.comp_def, hf.key]

theorem isDefined_map (name : String) : (ss.map f).isDefined name = ss.isDefined name := by
  rw [isDefined, definition?_map hf, Option.isSome_map, isDefined]

theorem pairs_map : Link.pairs (ss.map f) = (Link.pairs ss).map (Prod.map f f) := by
  simp only [Link.pairs, definitions_map hf, references_map hf, List.flatMap_map, List.map_flatMap,
    List.filter_map, List.map_map, Function.comp_def, Prod.map_fst, hf.key, Prod.map_apply]

end Symbols

/-! ### Pairs -/

namespace Link

theorem mem_references {ss : Symbols} {u : Symbol} :
    (∃ i, (u, i) ∈ ss.references) ↔ u ∈ ss.uses := by
  simp only [Symbols.references, Symbols.uses, List.mem_filter]
  constructor
  · rintro ⟨i, hmem, hu⟩
    exact ⟨(List.mem_zipIdx' hmem).2 ▸ List.getElem_mem _, hu⟩
  · rintro ⟨hmem, hu⟩
    obtain ⟨i, hi, rfl⟩ := List.getElem_of_mem hmem
    exact ⟨i, List.mk_mem_zipIdx_iff_getElem?.mpr (List.getElem?_eq_getElem hi), hu⟩

/-- The pairs are the labels with the references of their keys. -/
theorem mem_pairs {ss : Symbols} {label u : Symbol} :
    (label, u) ∈ pairs ss ↔ label ∈ ss.definitions ∧ u ∈ ss.uses ∧ u.key = label.key := by
  simp only [pairs, List.mem_flatMap, List.mem_map, List.mem_filter, decide_eq_true_eq,
    ← mem_references]
  constructor
  · rintro ⟨d, hd, ⟨v, i⟩, ⟨hv, hkey⟩, heq⟩
    cases heq
    exact ⟨hd, ⟨i, hv⟩, hkey⟩
  · rintro ⟨hd, ⟨i, hu⟩, hkey⟩
    exact ⟨label, hd, (u, i), ⟨hu, hkey⟩, rfl⟩

theorem unresolved?_eq_none {ss : Symbols} :
    unresolved? ss = none ↔ ∀ u ∈ ss.uses, ss.isDefined u.name := by
  simp only [unresolved?, Option.map_eq_none_iff, List.find?_eq_none, Bool.not_eq_true,
    Bool.not_eq_false', ← mem_references]
  exact ⟨fun h u ⟨i, hu⟩ => h (u, i) hu, fun h p hp => h p.1 ⟨p.2, hp⟩⟩

/-! ### Serving pairs -/

theorem servePairs_cons {label u : Symbol} {ps : List (Symbol × Symbol)} {m m' : Image}
    (h : servePairs ((label, u) :: ps) m = (m', none)) :
    ∃ b, operandByte? label u = some b ∧ servePairs ps (m.patch u.address b) = (m', none) := by
  rw [servePairs] at h
  split at h
  · next b hb => exact ⟨b, hb, h⟩
  · simp at h

/-- Serving finds a byte for every pair. -/
theorem exists_operandByte : ∀ {ps : List (Symbol × Symbol)} {m m' : Image},
    servePairs ps m = (m', none) → ∀ p ∈ ps, ∃ b, operandByte? p.1 p.2 = some b
  | [], _, _, _ => by simp
  | (label, u) :: ps, m, m', h => by
    obtain ⟨b, hb, hrest⟩ := servePairs_cons h
    intro p hp
    rcases List.mem_cons.mp hp with rfl | hp
    · exact ⟨b, hb⟩
    · exact exists_operandByte hrest p hp

/-- Serving goes through if there is a byte for every pair. -/
theorem exists_servePairs : ∀ {ps : List (Symbol × Symbol)} (m : Image),
    (∀ p ∈ ps, ∃ b, operandByte? p.1 p.2 = some b) → ∃ m', servePairs ps m = (m', none)
  | [], m, _ => ⟨m, rfl⟩
  | (label, u) :: ps, m, h => by
    obtain ⟨b, hb⟩ := h (label, u) List.mem_cons_self
    obtain ⟨m', hm'⟩ := exists_servePairs (m.patch u.address b) fun p hp =>
      h p (List.mem_cons_of_mem _ hp)
    exact ⟨m', by rw [servePairs, hb]; exact hm'⟩

theorem cursor_servePairs : ∀ {ps : List (Symbol × Symbol)} {m m' : Image},
    servePairs ps m = (m', none) → m'.cursor = m.cursor
  | [], _, _, h => by cases h; rfl
  | (label, u) :: ps, m, m', h => by
    obtain ⟨b, -, hrest⟩ := servePairs_cons h
    rw [cursor_servePairs hrest, Image.cursor_patch]

/-- Serving leaves a byte alone on which no reference stands. -/
theorem get?_servePairs_of_ne : ∀ {ps : List (Symbol × Symbol)} {m m' : Image} {a : Nat},
    servePairs ps m = (m', none) → (∀ p ∈ ps, p.2.address ≠ a) → m'.get? a = m.get? a
  | [], _, _, _, h, _ => by cases h; rfl
  | (label, u) :: ps, m, m', a, h, hne => by
    obtain ⟨b, -, hrest⟩ := servePairs_cons h
    have hu : u.address ≠ a := hne _ (List.mem_cons_self ..)
    rw [get?_servePairs_of_ne hrest fun p hp => hne p (List.mem_cons_of_mem _ hp),
      Image.get?_patch]
    simp [Ne.symm hu]

/-- Serving writes a byte on which references stand that all ask for the same. -/
theorem get?_servePairs_of_eq : ∀ {ps : List (Symbol × Symbol)} {m m' : Image} {a : Nat} {b : UInt8},
    servePairs ps m = (m', none) → (m.get? a).isSome →
    (∀ p ∈ ps, p.2.address = a → operandByte? p.1 p.2 = some b) →
    (∃ p ∈ ps, p.2.address = a) → m'.get? a = some b
  | [], _, _, _, _, _, _, _, hex => by simp at hex
  | (label, u) :: ps, m, m', a, b, h, hsome, hall, hex => by
    obtain ⟨b', hb', hrest⟩ := servePairs_cons h
    have hall' : ∀ p ∈ ps, p.2.address = a → operandByte? p.1 p.2 = some b :=
      fun p hp => hall p (List.mem_cons_of_mem _ hp)
    have hpatch : (m.patch u.address b').get? a = if u.address = a then some b else m.get? a := by
      rw [Image.get?_patch]
      by_cases hu : u.address = a
      · have hbb : b' = b := by
          have := hall _ (List.mem_cons_self ..) hu
          rw [hb'] at this
          exact Option.some.inj this
        subst hu
        simp [hsome, hbb]
      · simp [hu, Ne.symm hu]
    by_cases hlater : ∃ p ∈ ps, p.2.address = a
    · refine get?_servePairs_of_eq hrest ?_ hall' hlater
      rw [hpatch]
      split <;> simp [hsome]
    · -- the last pair at this address is the one served now
      have hu : u.address = a := by
        obtain ⟨p, hp, ha⟩ := hex
        rcases List.mem_cons.mp hp with rfl | hp
        · exact ha
        · exact absurd ⟨p, hp, ha⟩ hlater
      rw [get?_servePairs_of_ne hrest (fun p hp ha => hlater ⟨p, hp, ha⟩), hpatch, if_pos hu]

end Link

/-- Linking succeeds when all pairs are served and every reference has a label. -/
theorem link_eq_none {ss : Symbols} {m m' : Image} (h : link ss m = (m', none)) :
    Link.servePairs (Link.pairs ss) m = (m', none) ∧ ∀ u ∈ ss.uses, ss.isDefined u.name := by
  rw [link_eq] at h
  split at h
  · simp at h
  · next m₁ hserve =>
    simp only [Prod.mk.injEq] at h
    obtain ⟨rfl, hnone⟩ := h
    exact ⟨hserve, Link.unresolved?_eq_none.mp hnone⟩

/-- Every reference has a label, and every label is within reach of its references. -/
structure Symbols.Linkable (ss : Symbols) : Prop where
  defined : ∀ u ∈ ss.uses, ss.isDefined u.name
  reach : ∀ p ∈ Link.pairs ss, ∃ b, Link.operandByte? p.1 p.2 = some b

/-- Whether linking succeeds is a matter of the symbols and not of the image. -/
theorem exists_link_iff {ss : Symbols} {m : Image} :
    (∃ m', link ss m = (m', none)) ↔ ss.Linkable := by
  constructor
  · rintro ⟨m', h⟩
    obtain ⟨hserve, hdefined⟩ := link_eq_none h
    exact ⟨hdefined, Link.exists_operandByte hserve⟩
  · rintro ⟨hdefined, hreach⟩
    obtain ⟨m', hserve⟩ := Link.exists_servePairs m hreach
    exact ⟨m', by rw [link_eq, hserve]; simp [Link.unresolved?_eq_none.mpr hdefined]⟩

/-! ### Images of replays -/

/-- The image is the finished image of the replay. -/
structure Replay.Links (r : Replay) (m : Image) : Prop where
  cursor : m.cursor = r.cursor
  /-- every byte that was placed has its final value -/
  bytes : ∀ p ∈ r.placed, ∃ b, p.value.byte? r.symbols p.address = some b ∧
    m.get? p.address = some b
  /-- nothing else is written -/
  free : ∀ a, r.at? a = none → m.get? a = none
  /-- no distance is too long for a byte -/
  reach : ∀ p ∈ r.placed, ∀ name, p.value = .symbol name .relative → ∀ label,
    r.symbols.address? name = some label →
      -128 ≤ Link.displacement label p.address ∧ Link.displacement label p.address ≤ 127

theorem Placed.address_of_reference? {p : Placed} {u : Symbol} (h : p.reference? = some u) :
    u.address = p.address := by
  unfold Placed.reference? at h
  split at h
  · simp at h
  · simp only [Option.some.injEq] at h
    rw [← h]

/-- The reference on an address is the one that the byte placed there left. -/
theorem Replay.Reached.reference?_eq {r : Replay} (hre : r.Reached) (hr : r.Sound) {p : Placed}
    {u : Symbol} (hp : p ∈ r.placed) (hu : u ∈ r.symbols.uses) (ha : u.address = p.address) :
    p.reference? = some u := by
  rw [hre.uses, List.mem_filterMap] at hu
  obtain ⟨q, hq, hqu⟩ := hu
  have hqp : q = p := List.inj_on_of_nodup_map hr.once hq hp
    ((Placed.address_of_reference? hqu).symm.trans ha)
  rw [← hqp, hqu]

/-- The label of a name is the definition with its key. -/
theorem Replay.Sound.definition?_eq {r : Replay} (hr : r.Sound) {d : Symbol} {name : String}
    (hd : d ∈ r.symbols.definitions) (hkey : d.key = Text.upper name) :
    r.symbols.definition? name = some d := by
  rw [Symbols.definition?, ← hkey]
  exact find?_key_eq_some hr.distinct hd

/-- The byte that a pair asks for is the final byte of the symbol. -/
theorem operandByte?_eq_byte? {ss : Symbols} {d : Symbol} {name : String} {mode : Mode}
    {address line : Nat} {b : UInt8} (hd : ss.definition? name = some d)
    (h : Link.operandByte? d ⟨name, .reference mode, address, line⟩ = some b) :
    (Value.symbol name mode).byte? ss address = some b ∧
      (mode = .relative → -128 ≤ Link.displacement d.address address ∧
        Link.displacement d.address address ≤ 127) := by
  have haddress : ss.address? name = some d.address := by rw [Symbols.address?, hd]; rfl
  cases mode with
  | absolute =>
    simp only [Link.operandByte?] at h
    exact ⟨by rw [Value.byte?, haddress]; exact h, by simp⟩
  | relative =>
    simp only [Link.operandByte?, Link.signedByte?, Option.ite_none_right_eq_some,
      Link.ofInt_displacement] at h
    exact ⟨by rw [Value.byte?, haddress]; exact h.2, fun _ => h.1⟩

/-- Linking that succeeds gives the finished image of the replay. -/
theorem Replay.Fits.link {r : Replay} {m m' : Image} {ss : Symbols}
    {lines : Vector (Option Nat) 256} (hf : r.Fits m ss lines) (hr : r.Sound) (hre : r.Reached)
    (h : Asm8.link ss m = (m', none)) : r.Links m' := by
  obtain ⟨hserve, hdef⟩ := link_eq_none h
  rw [hf.symbols] at hserve hdef
  have hget : ∀ p ∈ r.placed, m.get? p.address = some (p.value.draft p.address) :=
    fun p hp => hf.get?_address hr hp
  -- what serving leaves on a placed symbol, and how far off its label is
  have hsymbol : ∀ p ∈ r.placed, ∀ name mode, p.value = .symbol name mode → ∃ d b,
      r.symbols.definition? name = some d ∧ (Value.symbol name mode).byte? r.symbols p.address = some b ∧
        m'.get? p.address = some b ∧ (mode = .relative →
          -128 ≤ Link.displacement d.address p.address ∧
            Link.displacement d.address p.address ≤ 127) := by
    intro p hp name mode hv
    have hpu : p.reference? = some ⟨name, .reference mode, p.address, p.line⟩ := by
      simp [Placed.reference?, hv]
    have hu : ⟨name, .reference mode, p.address, p.line⟩ ∈ r.symbols.uses := by
      rw [hre.uses]; exact List.mem_filterMap.mpr ⟨p, hp, hpu⟩
    obtain ⟨d, hd⟩ := Option.isSome_iff_exists.mp (hdef _ hu)
    have hdmem := List.mem_of_find?_eq_some hd
    have hdkey : d.key = Text.upper name := by simpa using List.find?_some hd
    have hpair := Link.mem_pairs.mpr ⟨hdmem, hu, hdkey.symm⟩
    obtain ⟨b, hb⟩ := Link.exists_operandByte hserve _ hpair
    obtain ⟨hbyte, hreach⟩ := operandByte?_eq_byte? hd hb
    refine ⟨d, b, hd, hbyte, ?_, hreach⟩
    refine Link.get?_servePairs_of_eq hserve (by rw [hget p hp]; rfl) ?_ ⟨_, hpair, rfl⟩
    rintro ⟨d', u'⟩ hpair' ha
    obtain ⟨hdmem', hu', hkey'⟩ := Link.mem_pairs.mp hpair'
    have huu : u' = ⟨name, .reference mode, p.address, p.line⟩ := by
      have := hre.reference?_eq hr hp hu' ha
      rw [hpu] at this
      exact (Option.some.inj this).symm
    subst huu
    have hdd : d' = d := by
      have := hr.definition?_eq hdmem' hkey'.symm
      rw [hd] at this
      exact (Option.some.inj this).symm
    rw [hdd]
    exact hb
  refine ⟨(Link.cursor_servePairs hserve).trans hf.cursor, ?_, ?_, ?_⟩
  · intro p hp
    cases hv : p.value with
    | symbol name mode =>
      obtain ⟨d, b, -, hbyte, hm, -⟩ := hsymbol p hp name mode hv
      exact ⟨b, hbyte, hm⟩
    | byte b =>
      refine ⟨b, rfl, ?_⟩
      rw [Link.get?_servePairs_of_ne hserve, hget p hp, hv]
      · rfl
      · rintro ⟨d, u⟩ hpair ha
        have hpu := hre.reference?_eq hr hp (Link.mem_pairs.mp hpair).2.1 ha
        simp [Placed.reference?, hv] at hpu
  · intro a ha
    rw [Link.get?_servePairs_of_ne hserve, hf.cells, ha]
    · rfl
    · rintro ⟨d, u⟩ hpair hua
      have hu := (Link.mem_pairs.mp hpair).2.1
      rw [hre.uses, List.mem_filterMap] at hu
      obtain ⟨q, hq, hqu⟩ := hu
      rw [at?_eq_none_iff] at ha
      exact ha (List.mem_map.mpr ⟨q, hq, (Placed.address_of_reference? hqu).symm.trans hua⟩)
  · intro p hp name hv label hlabel
    obtain ⟨d, b, hd, -, -, hreach⟩ := hsymbol p hp name .relative hv
    rw [Symbols.address?, hd] at hlabel
    cases hlabel
    exact hreach rfl

/-- An assembled program is the finished image of the replay of its items, which obeys the rules. -/
theorem assembleTokens_reading {t : Table} {toks : List Token} {a : Assembly}
    (h : assembleTokens t toks = .ok a) :
    ∃ is last, Reading t toks is last ∧ (Replay.program t is last.line).Sound ∧
      (Replay.program t is last.line).Links a.image ∧
      a.symbols = (Replay.program t is last.line).symbols ∧
      ∀ x, a.lines[x]?.join = ((Replay.program t is last.line).at? x).map fun p => p.line := by
  obtain ⟨e, he, hlink⟩ := bind_ok_iff.mp h
  obtain ⟨is, last, hread, hsound, hfits⟩ := encode_reading he
  split at hlink
  · simp at hlink
  · next image hnone =>
    cases hlink
    exact ⟨is, last, hread, hsound, hfits.link hsound (Replay.reached_program t is last.line) hnone,
      hfits.symbols, hfits.lines⟩

end Asm8
