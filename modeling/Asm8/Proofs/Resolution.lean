import Asm8.Proofs.Coherence

/-!
In which order labels and references are brought together, and what is left where this fails.

Every label is served with all references of its key, labels in the order of their definitions and the
references of each in their own order. The symbols may be any: a key with several labels, an address
with several references. So pairs are ordered by the places of label and reference among the symbols:

    place        0    1    2    3    4
    symbol       A:   →B   B:   →A   →A          pairs  (0,3)  (0,4)  (2,1)

The first pair out of reach ends it, with the bytes of the pairs before it written. If there is none,
the last pair at an address has its byte there, and the first reference without a label is reported.
-/

namespace Asm8

/-- In a list in strict order, what comes before an element of the list stands before it. -/
theorem mem_of_lt_of_pairwise {α : Type} {R : α → α → Prop} (hR : ∀ a b, R a b → ¬R b a)
    {xs ys : List α} {x y : α} (h : (xs ++ x :: ys).Pairwise R) (hy : y ∈ xs ++ x :: ys)
    (hlt : R y x) : y ∈ xs := by
  obtain ⟨-, hys, -⟩ := List.pairwise_append.mp h
  rcases List.mem_append.mp hy with hy | hy
  · exact hy
  rcases List.mem_cons.mp hy with rfl | hy
  · exact absurd hlt (hR _ _ hlt)
  · exact absurd hlt (hR _ _ ((List.pairwise_cons.mp hys).1 y hy))

namespace Link

/-! ### Pairs at their places -/

/-- A label and a reference, with their places among the symbols. -/
structure Pairing where
  definedAt : Nat
  usedAt : Nat
  label : Symbol
  reference : Symbol
  deriving DecidableEq, Repr

namespace Pairing

/-- The label and the reference stand at their places among the symbols and have one key. -/
structure Of (p : Pairing) (ss : Symbols) : Prop where
  label : ss.entries[p.definedAt]? = some p.label ∧ p.label.role = .definition
  reference : ss.entries[p.usedAt]? = some p.reference ∧ p.reference.role ≠ .definition
  key : p.reference.key = p.label.key

/-- The order of the definitions, and of the references for each of them. -/
def Before (p q : Pairing) : Prop :=
  p.definedAt < q.definedAt ∨ p.definedAt = q.definedAt ∧ p.usedAt < q.usedAt

/-- The reference is relative, and the distance to the label does not fit into a byte. -/
def OutOfReach (p : Pairing) : Prop :=
  p.reference.role = .reference .relative ∧
    ¬(-128 ≤ displacement p.label.address p.reference.address ∧
      displacement p.label.address p.reference.address ≤ 127)

/-- The byte of the reference: the distance to the label in two's complement, or else the address of
the label modulo 256. -/
def byte (p : Pairing) : UInt8 :=
  if p.reference.role = .reference .relative then
    UInt8.ofInt (displacement p.label.address p.reference.address)
  else UInt8.ofNat p.label.address

/-- The label and the reference as they are served. -/
def pair (p : Pairing) : Symbol × Symbol := (p.label, p.reference)

theorem Before.asymm {p q : Pairing} (h : p.Before q) : ¬q.Before p := by
  unfold Before at *
  omega

theorem operandByte?_of_outOfReach {p : Pairing} (h : p.OutOfReach) :
    operandByte? p.label p.reference = none := by
  rw [operandByte?, h.1]
  exact if_neg h.2

theorem operandByte?_of_not {p : Pairing} (h : ¬p.OutOfReach) :
    operandByte? p.label p.reference = some p.byte := by
  unfold operandByte? byte
  split
  · next hrole =>
    rw [OutOfReach, not_and, not_not] at h
    rw [if_pos hrole]
    exact if_pos (h hrole)
  · next hrole => rw [if_neg hrole]

end Pairing

/-- All pairs of the symbols, in the order in which they are served. -/
def pairings (ss : Symbols) : List Pairing :=
  (ss.entries.zipIdx.filter (·.1.isDefinition)).flatMap fun d =>
    (ss.references.filter (·.1.key = d.1.key)).map fun r => ⟨d.2, r.2, d.1, r.1⟩

theorem definitions_eq_map_fst (ss : Symbols) :
    ss.definitions = (ss.entries.zipIdx.filter (·.1.isDefinition)).map Prod.fst := by
  conv_lhs => rw [Symbols.definitions, ← List.zipIdx_map_fst 0 ss.entries, List.filter_map]
  rfl

theorem map_pair_pairings (ss : Symbols) : (pairings ss).map Pairing.pair = pairs ss := by
  rw [pairs, definitions_eq_map_fst, List.flatMap_map, pairings, List.map_flatMap]
  simp only [List.map_map]
  rfl

theorem mem_pairings {ss : Symbols} {p : Pairing} : p ∈ pairings ss ↔ p.Of ss := by
  simp only [pairings, List.mem_flatMap, List.mem_filter, List.mem_map, decide_eq_true_eq,
    List.mem_zipIdx_iff_getElem?, Symbol.isDefinition]
  constructor
  · rintro ⟨⟨label, i⟩, hlabel, ⟨u, j⟩, ⟨hu, hkey⟩, rfl⟩
    exact ⟨hlabel, mem_references_iff.mp hu, hkey⟩
  · intro h
    exact ⟨(p.label, p.definedAt), h.label, (p.reference, p.usedAt),
      ⟨mem_references_iff.mpr h.reference, h.key⟩, rfl⟩

theorem Pairing.Of.reference_mem {ss : Symbols} {p : Pairing} (h : p.Of ss) :
    p.reference ∈ ss.uses :=
  mem_references.mp ⟨p.usedAt, mem_references_iff.mpr h.reference⟩

theorem pairwise_zipIdx {α : Type} (xs : List α) : xs.zipIdx.Pairwise (·.2 < ·.2) := by
  rw [← List.pairwise_map, List.zipIdx_map_snd]
  exact List.pairwise_lt_range'

/-- The pairs are served in the order of their places. -/
theorem pairwise_pairings (ss : Symbols) : (pairings ss).Pairwise Pairing.Before := by
  rw [pairings, List.pairwise_flatMap]
  constructor
  · intro d _
    rw [List.pairwise_map]
    refine (((pairwise_zipIdx ss.entries).filter _).filter _).imp ?_
    exact fun hlt => .inr ⟨rfl, hlt⟩
  · refine ((pairwise_zipIdx ss.entries).filter _).imp ?_
    intro d d' hlt p hp q hq
    obtain ⟨r, -, rfl⟩ := List.mem_map.mp hp
    obtain ⟨r', -, rfl⟩ := List.mem_map.mp hq
    exact .inl hlt

/-! ### Serving up to a pair -/

theorem servePairs_append {xs ys : List (Symbol × Symbol)} {m m' : Image}
    (h : servePairs xs m = (m', none)) : servePairs (xs ++ ys) m = servePairs ys m' := by
  induction xs generalizing m with
  | nil => cases h; rfl
  | cons x xs ih =>
    obtain ⟨b, hb, hrest⟩ := servePairs_cons h
    rw [List.cons_append, servePairs, hb]
    exact ih hrest

/-- Whether or not a pair is out of reach, the image is that after some pairs from the left. -/
theorem exists_served : ∀ (ps : List (Symbol × Symbol)) (m : Image),
    ∃ xs, xs <+: ps ∧ servePairs xs m = ((servePairs ps m).1, none)
  | [], _ => ⟨[], List.prefix_rfl, rfl⟩
  | (label, u) :: ps, m => by
    cases hb : operandByte? label u with
    | some b =>
      obtain ⟨xs, hxs, hserve⟩ := exists_served ps (m.patch u.address b)
      refine ⟨(label, u) :: xs, List.cons_prefix_cons.mpr ⟨rfl, hxs⟩, ?_⟩
      simp only [servePairs, hb]
      exact hserve
    | none => exact ⟨[], List.nil_prefix, by simp only [servePairs, hb]⟩

/-- Pairs within reach are all served. -/
theorem exists_servePairs_of_reach {ps : List Pairing} (h : ∀ p ∈ ps, ¬p.OutOfReach) (m : Image) :
    ∃ m', servePairs (ps.map Pairing.pair) m = (m', none) := by
  refine exists_servePairs m ?_
  rw [List.forall_mem_map]
  exact fun p hp => ⟨_, Pairing.operandByte?_of_not (h p hp)⟩

/-- Serving ends at the first pair out of reach. -/
theorem servePairs_outOfReach {xs ys : List Pairing} {p : Pairing} {m m' : Image}
    (h : servePairs (xs.map Pairing.pair) m = (m', none)) (hp : p.OutOfReach) :
    servePairs ((xs ++ p :: ys).map Pairing.pair) m =
      (m', some ⟨p.label.line,
        .unreachable p.label.key (displacement p.label.address p.reference.address)⟩) := by
  rw [List.map_append, servePairs_append h, List.map_cons, Pairing.pair, servePairs,
    Pairing.operandByte?_of_outOfReach hp]

/-- Each pair has written its byte, the last one at an address for good, and nothing else has
changed. -/
structure Patched (P : Pairing → Prop) (m m' : Image) : Prop where
  last : ∀ p, P p → (∀ q, P q → q.reference.address = p.reference.address → ¬p.Before q) →
    m'.get? p.reference.address = some p.byte
  kept : ∀ x, (∀ p, P p → p.reference.address ≠ x) → m'.get? x = m.get? x

theorem patched_servePairs {ps : List Pairing} {m m' : Image} (hps : ps.Pairwise Pairing.Before)
    (hw : ∀ p ∈ ps, (m.get? p.reference.address).isSome) (hreach : ∀ p ∈ ps, ¬p.OutOfReach)
    (h : servePairs (ps.map Pairing.pair) m = (m', none)) : Patched (· ∈ ps) m m' := by
  constructor
  · intro p hp hlast
    obtain ⟨xs, ys, rfl⟩ := List.append_of_mem hp
    obtain ⟨-, hys, -⟩ := List.pairwise_append.mp hps
    have hxs : ∀ q ∈ xs, ¬q.OutOfReach := fun q hq => hreach q (List.mem_append_left _ hq)
    obtain ⟨m₁, hm₁⟩ := exists_servePairs_of_reach hxs m
    rw [List.map_append, servePairs_append hm₁, List.map_cons] at h
    obtain ⟨b, hb, hrest⟩ := servePairs_cons h
    have hbyte : b = p.byte :=
      Option.some.inj (hb.symm.trans (Pairing.operandByte?_of_not (hreach p hp)))
    -- the pairs after this one write other bytes
    have hlater : ∀ q ∈ ys.map Pairing.pair, q.2.address ≠ p.reference.address := by
      rw [List.forall_mem_map]
      intro q hq heq
      exact hlast q (by simp [hq]) heq ((List.pairwise_cons.mp hys).1 q hq)
    have hwritten : (m₁.get? p.reference.address).isSome := by
      rw [isSome_get?_servePairs hm₁]
      exact hw p hp
    rw [get?_servePairs_of_ne hrest hlater, Image.get?_patch, if_pos ⟨rfl, hwritten⟩, hbyte]
  · intro x hx
    refine get?_servePairs_of_ne h ?_
    rw [List.forall_mem_map]
    exact hx

theorem Patched.congr {P Q : Pairing → Prop} {m m' : Image} (h : Patched P m m')
    (hPQ : ∀ p, P p ↔ Q p) : Patched Q m m' := by
  rwa [← funext fun p => propext (hPQ p)]

/-- The pairs before one of them, in their order. -/
theorem mem_left_iff {ss : Symbols} {xs ys : List Pairing} {p q : Pairing}
    (h : pairings ss = xs ++ p :: ys) : q ∈ xs ↔ q.Of ss ∧ q.Before p := by
  have hsorted := pairwise_pairings ss
  rw [h] at hsorted
  rw [← mem_pairings, h]
  constructor
  · intro hq
    obtain ⟨-, -, hbefore⟩ := List.pairwise_append.mp hsorted
    exact ⟨List.mem_append_left _ hq, hbefore q hq p List.mem_cons_self⟩
  · rintro ⟨hq, hlt⟩
    exact mem_of_lt_of_pairwise (fun _ _ => Pairing.Before.asymm) hsorted hq hlt

/-- Where a pair is out of reach, there is a first one. -/
theorem exists_first_outOfReach {ss : Symbols} (h : ∃ p : Pairing, p.Of ss ∧ p.OutOfReach) :
    ∃ xs p ys, pairings ss = xs ++ p :: ys ∧ p.OutOfReach ∧ ∀ q ∈ xs, ¬q.OutOfReach := by
  classical
  obtain ⟨p, hp, hout⟩ := h
  have hfind : ((pairings ss).find? (·.OutOfReach)).isSome :=
    List.find?_isSome.mpr ⟨p, mem_pairings.mpr hp, decide_eq_true hout⟩
  obtain ⟨q, hq⟩ := Option.isSome_iff_exists.mp hfind
  obtain ⟨hq, xs, ys, hsplit, hxs⟩ := List.find?_eq_some_iff_append.mp hq
  exact ⟨xs, q, ys, hsplit, of_decide_eq_true hq, by simpa using hxs⟩

end Link

/-! ### References without a label -/

namespace Symbols

variable {ss : Symbols} {u : Symbol}

/-- The symbol at this place is the first reference without a label. -/
structure FirstOpen (ss : Symbols) (j : Nat) (u : Symbol) : Prop where
  reference : ss.entries[j]? = some u ∧ u.role ≠ .definition
  opens : ¬ss.Labels u
  first : ∀ k < j, ∀ v, ss.entries[k]? = some v → v.role ≠ .definition → ss.Labels v

/-- The first reference without a label is reported. -/
theorem exists_firstOpen (h : ∃ v ∈ ss.uses, ¬ss.Labels v) :
    ∃ j v, ss.FirstOpen j v ∧ Link.unresolved? ss = some ⟨v.line, .unresolved v.key⟩ := by
  obtain ⟨v, hv, hopen⟩ := h
  obtain ⟨j, hj⟩ := Link.mem_references.mpr hv
  have hfind : (ss.references.find? fun r => !ss.isDefined r.1.name).isSome := by
    refine List.find?_isSome.mpr ⟨(v, j), hj, ?_⟩
    rw [Bool.not_eq_true', Bool.eq_false_iff, ne_eq, isDefined_iff_labels]
    exact hopen
  obtain ⟨⟨u, i⟩, hu⟩ := Option.isSome_iff_exists.mp hfind
  have hreport : Link.unresolved? ss = some ⟨u.line, .unresolved u.key⟩ := by
    rw [Link.unresolved?, hu]
    rfl
  obtain ⟨hundefined, xs, ys, hsplit, hxs⟩ := List.find?_eq_some_iff_append.mp hu
  rw [Bool.not_eq_true', Bool.eq_false_iff, ne_eq, isDefined_iff_labels] at hundefined
  have hmem : (u, i) ∈ ss.references := by rw [hsplit]; simp
  refine ⟨i, u, ⟨Link.mem_references_iff.mp hmem, hundefined, ?_⟩, hreport⟩
  intro k hk w hw hrole
  have hsorted : (xs ++ (u, i) :: ys).Pairwise (·.2 < ·.2) := by
    rw [← hsplit]
    exact (Link.pairwise_zipIdx ss.entries).filter _
  have hbefore : (w, k) ∈ xs := by
    refine mem_of_lt_of_pairwise (fun _ _ => Nat.lt_asymm) hsorted ?_ hk
    rw [← hsplit]
    exact Link.mem_references_iff.mpr ⟨hw, hrole⟩
  rw [← isDefined_iff_labels]
  simpa using hxs _ hbefore

end Symbols

/-! ### Linking in order -/

open Link

section

variable {ss : Symbols} {m : Image} (hw : ∀ u ∈ ss.uses, (m.get? u.address).isSome)
include hw

/-- Linking ends at the first pair out of reach, and leaves the bytes of the pairs before it. -/
theorem link_of_outOfReach (h : ∃ p : Pairing, p.Of ss ∧ p.OutOfReach) :
    ∃ p : Pairing, p.Of ss ∧ p.OutOfReach ∧ (∀ q : Pairing, q.Of ss → q.OutOfReach → ¬q.Before p) ∧
      (link ss m).2 = some ⟨p.label.line,
        .unreachable p.label.key (displacement p.label.address p.reference.address)⟩ ∧
      Patched (fun q => q.Of ss ∧ q.Before p) m (link ss m).1 := by
  obtain ⟨xs, p, ys, hsplit, hout, hreach⟩ := exists_first_outOfReach h
  have hof : ∀ q ∈ xs ++ p :: ys, q.Of ss := fun q hq => mem_pairings.mp (hsplit ▸ hq)
  obtain ⟨m', hserve⟩ := exists_servePairs_of_reach hreach m
  have hlink : link ss m = (m', some ⟨p.label.line,
      .unreachable p.label.key (displacement p.label.address p.reference.address)⟩) := by
    rw [link_eq, ← map_pair_pairings, hsplit, servePairs_outOfReach hserve hout]
  have hsorted : xs.Pairwise Pairing.Before := by
    have hall := pairwise_pairings ss
    rw [hsplit] at hall
    exact (List.pairwise_append.mp hall).1
  have hpatched : Patched (· ∈ xs) m m' := by
    refine patched_servePairs hsorted ?_ hreach hserve
    exact fun q hq => hw _ (hof q (List.mem_append_left _ hq)).reference_mem
  rw [hlink]
  refine ⟨p, hof p (by simp), hout, ?_, rfl, hpatched.congr fun q => mem_left_iff hsplit⟩
  intro q hq hfar hlt
  exact hreach q ((mem_left_iff hsplit).mpr ⟨hq, hlt⟩) hfar

/-- Where every pair is within reach, all of them have their bytes, and it is left to find a label for
every reference. -/
theorem link_of_reach (h : ∀ p : Pairing, p.Of ss → ¬p.OutOfReach) :
    (link ss m).2 = unresolved? ss ∧ Patched (·.Of ss) m (link ss m).1 := by
  have hreach : ∀ p ∈ pairings ss, ¬p.OutOfReach := fun p hp => h p (mem_pairings.mp hp)
  obtain ⟨m', hserve⟩ := exists_servePairs_of_reach hreach m
  have hlink : link ss m = (m', unresolved? ss) := by
    rw [link_eq, ← map_pair_pairings, hserve]
  have hpatched : Patched (· ∈ pairings ss) m m' := by
    refine patched_servePairs (pairwise_pairings ss) ?_ hreach hserve
    exact fun p hp => hw _ (mem_pairings.mp hp).reference_mem
  rw [hlink]
  exact ⟨rfl, hpatched.congr fun p => mem_pairings⟩

end

/-- Whatever linking reports, it changes bytes of references only. -/
theorem link_frame (ss : Symbols) (m : Image) :
    (link ss m).1.used = m.used ∧ (link ss m).1.cursor = m.cursor ∧
      ∀ x, (∀ u ∈ ss.uses, u.address ≠ x) → (link ss m).1.get? x = m.get? x := by
  have hfst : (link ss m).1 = (servePairs (pairs ss) m).1 := by
    rw [link_eq]
    split <;> simp_all
  obtain ⟨ps, hps, hserve⟩ := exists_served (pairs ss) m
  rw [hfst]
  refine ⟨Image.used_congr (isSome_get?_servePairs hserve), cursor_servePairs hserve, ?_⟩
  intro x hx
  refine get?_servePairs_of_ne hserve ?_
  rintro ⟨label, u⟩ hpair
  exact hx u (mem_pairs.mp (hps.subset hpair)).2.1

/-- Labels and references are brought together in the order of their places. If a pair is out of reach,
the first such pair is reported, on the line of its label, and the pairs before it have their bytes.
Otherwise all pairs have theirs, the last one at an address for good, and the first reference without a
label is reported on its line, if there is one. In no case anything changes but bytes of references.
Distances are words of 64 bits, and for labels in the lower half of the range the numbers they stand
for. -/
theorem link_in_order {ss : Symbols} {m : Image} (hw : ∀ u ∈ ss.uses, (m.get? u.address).isSome) :
    ((∃ p : Pairing, p.Of ss ∧ p.OutOfReach) →
      ∃ p : Pairing, p.Of ss ∧ p.OutOfReach ∧
        (∀ q : Pairing, q.Of ss → q.OutOfReach → ¬q.Before p) ∧
        (link ss m).2 = some ⟨p.label.line,
          .unreachable p.label.key (displacement p.label.address p.reference.address)⟩ ∧
        Patched (fun q => q.Of ss ∧ q.Before p) m (link ss m).1) ∧
    ((∀ p : Pairing, p.Of ss → ¬p.OutOfReach) →
      Patched (·.Of ss) m (link ss m).1 ∧
      ((∀ u ∈ ss.uses, ss.Labels u) → (link ss m).2 = none) ∧
      ((∃ u ∈ ss.uses, ¬ss.Labels u) →
        ∃ j u, ss.FirstOpen j u ∧ (link ss m).2 = some ⟨u.line, .unresolved u.key⟩)) ∧
    (link ss m).1.used = m.used ∧ (link ss m).1.cursor = m.cursor ∧
    (∀ x, (∀ u ∈ ss.uses, u.address ≠ x) → (link ss m).1.get? x = m.get? x) ∧
    ∀ p : Pairing, p.Of ss → p.label.address < 0x7FFFFFFFFFFFFFFF →
      displacement p.label.address p.reference.address =
        (p.label.address : Int) - p.reference.address + 1 := by
  obtain ⟨hused, hcursor, hkept⟩ := link_frame ss m
  refine ⟨link_of_outOfReach hw, ?_, hused, hcursor, hkept, ?_⟩
  · intro hreach
    obtain ⟨hreport, hpatched⟩ := link_of_reach hw hreach
    rw [hreport]
    refine ⟨hpatched, ?_, Symbols.exists_firstOpen⟩
    intro hlabels
    exact unresolved?_eq_none.mpr fun u hu => Symbols.isDefined_iff_labels.mpr (hlabels u hu)
  · intro p hp hlabel
    have hlt := Image.lt_of_isSome (hw _ hp.reference_mem)
    exact displacement_eq hlabel (by omega)

/-- A label defined twice, two references on one byte, and a label out of reach between the two. -/
def Symbols.crossed : Symbols :=
  ⟨[⟨"A", .definition, 0, 1⟩, ⟨"a", .reference .absolute, 1, 2⟩, ⟨"B", .definition, 200, 3⟩,
    ⟨"A", .reference .relative, 2, 4⟩, ⟨"b", .reference .relative, 1, 5⟩, ⟨"A", .definition, 7, 6⟩]⟩

theorem link_in_order_crossed :
    (∀ u ∈ Symbols.crossed.uses, ((Image.empty.fill 0x55 3).get? u.address).isSome) ∧
    (link .crossed (Image.empty.fill 0x55 3)).2 = some ⟨3, .unreachable "B" 200⟩ ∧
    (link .crossed (Image.empty.fill 0x55 3)).1.ram.take 4 = [0x55, 0x00, 0xFF, 0x00] ∧
    ∃ p : Pairing, p.Of .crossed ∧ p.OutOfReach ∧
      (∀ q : Pairing, q.Of .crossed → q.OutOfReach → ¬q.Before p) ∧
      Patched (fun q => q.Of .crossed ∧ q.Before p) (Image.empty.fill 0x55 3)
        (link .crossed (Image.empty.fill 0x55 3)).1 := by
  have hw : ∀ u ∈ Symbols.crossed.uses, ((Image.empty.fill 0x55 3).get? u.address).isSome := by
    decide +kernel
  have hof : Pairing.Of ⟨2, 4, ⟨"B", .definition, 200, 3⟩, ⟨"b", .reference .relative, 1, 5⟩⟩
      .crossed :=
    ⟨⟨rfl, rfl⟩, ⟨rfl, by decide⟩, by decide +kernel⟩
  obtain ⟨p, hp, hfar, hfirst, -, hpatched⟩ := (link_in_order hw).1 ⟨_, hof, rfl, by decide⟩
  exact ⟨hw, by decide +kernel, by decide +kernel, p, hp, hfar, hfirst, hpatched⟩

end Asm8
