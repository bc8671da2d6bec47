import Asm8.Operand.Candidates
import Mathlib.Data.List.Forall2
import Mathlib.Data.List.Induction

/-!
Following all shapes of a group at once is the same as trying each of them.

After some classes the candidates are the shapes that begin with these classes, each with the
classes that are left. Two facts about the groups make this enough to read operands without going
back: no shape of a group begins with all classes of another one, so that a complete candidate is
the only one, and no token belongs to two of the classes that are expected at one place.

    tokens    t₀   t₁   t₂  ...
    classes   k₀   k₁   k₂  ...      kᵢ accepts tᵢ, and k₀ k₁ k₂ ... are the classes of a shape
-/

namespace Asm8

/-! ### Groups -/

/-- No shape of a group begins with all classes of another one. -/
theorem Group.eq_of_classes_prefix {g : Group} {s s' : Shape} (hs : s ∈ g.shapes)
    (hs' : s' ∈ g.shapes) (h : s.classes <+: s'.classes) : s = s' := by
  have hall : ∀ a ∈ g.shapes, ∀ b ∈ g.shapes, a.classes <+: b.classes → a = b := by
    cases g <;> decide
  exact hall s hs s' hs' h

/-- A shape with a symbol is the only one of its group. -/
theorem Group.eq_of_symbol_mem {g : Group} {s s' : Shape} (hs : s ∈ g.shapes)
    (hs' : s' ∈ g.shapes) (h : .offset ∈ s.classes ∨ .absolute ∈ s.classes) : s' = s := by
  have hall : ∀ a ∈ g.shapes, ∀ b ∈ g.shapes,
      (Class.offset ∈ a.classes ∨ Class.absolute ∈ a.classes) → b = a := by
    cases g <;> decide
  exact hall s hs s' hs' h

/-! ### Classes of one token -/

namespace Class

theorem mem_all (k : Class) : k ∈ all := by
  cases k <;> decide

/-- No register is named like a number. -/
theorem register?_eq_none_of_hex? {kind : Kind} (h : kind.hex?.isSome) :
    kind.register? = none := by
  cases kind with
  | word s =>
    by_contra hne
    obtain ⟨r, hr⟩ := Option.ne_none_iff_exists'.mp hne
    have hname : r.name = s := by simpa using List.find?_some hr
    subst hname
    revert h
    cases r <;> decide
  | _ => rfl

/-- Of the classes without a name to look up, at most one accepts a token. -/
theorem eq_of_accepts {k k' : Class} {kind : Kind} (h : k.accepts kind) (h' : k'.accepts kind)
    (hk : k ≠ .offset ∧ k ≠ .absolute) (hk' : k' ≠ .offset ∧ k' ≠ .absolute) : k = k' := by
  have hdis := @register?_eq_none_of_hex? kind
  cases k <;> cases k' <;> simp only [accepts, decide_eq_true_eq] at h h' <;>
    first
    | rfl
    | (subst h; simp_all [Kind.hex?, Kind.register?])
    | (subst h'; simp_all [Kind.hex?, Kind.register?])
    | simp_all

/-- Tokens that belong to the given classes, one by one. -/
def Match (ks : List Class) (toks : List Token) : Prop :=
  List.Forall₂ (fun k tok => k.accepts tok.kind) ks toks

/-- No class accepts the end of a statement. -/
theorem not_accepts_of_endsStatement {k : Class} {kind : Kind} (h : kind.endsStatement) :
    k.accepts kind = false := by
  cases kind <;> simp [Kind.endsStatement] at h <;> cases k <;> rfl

/-- No operand ends a statement. -/
theorem Match.endsStatement_eq_false {ks : List Class} {toks : List Token} (h : Match ks toks) :
    ∀ tok ∈ toks, tok.kind.endsStatement = false := by
  induction h with
  | nil => simp
  | cons hk _ ih =>
    rintro tok htok
    rcases List.mem_cons.mp htok with rfl | htok
    · by_contra hends
      rw [not_accepts_of_endsStatement (by simpa using hends)] at hk
      cases hk
    · exact ih tok htok

/-- Apart from symbols, tokens belong to the classes of one list only. -/
theorem Match.unique {ks : List Class} {toks : List Token} (h : Match ks toks) :
    ∀ {ks' : List Class}, Match ks' toks → (∀ k ∈ ks, k ≠ .offset ∧ k ≠ .absolute) →
      (∀ k ∈ ks', k ≠ .offset ∧ k ≠ .absolute) → ks = ks' := by
  induction h with
  | nil => intro ks' h' _ _; cases h'; rfl
  | cons hk _ ih =>
    rintro _ (_ | ⟨hk', h'⟩) hks hks'
    rw [eq_of_accepts hk hk' (hks _ (by simp)) (hks' _ (by simp)),
      ih h' (fun k hk => hks k (by simp [hk])) (fun k hk => hks' k (by simp [hk]))]

end Class

/-- Tokens belong to one beginning of the shapes of a group only. -/
theorem Group.eq_of_match_prefix {g : Group} {s s' : Shape} {ks ks' : List Class}
    {toks : List Token} (hs : s ∈ g.shapes) (hs' : s' ∈ g.shapes) (hks : ks <+: s.classes)
    (hks' : ks' <+: s'.classes) (h : Class.Match ks toks) (h' : Class.Match ks' toks) :
    ks = ks' := by
  have hlen : ks.length = ks'.length := h.length_eq.trans h'.length_eq.symm
  -- a symbol leaves one shape to begin with, and without symbols the classes show in the tokens
  by_cases hsym : .offset ∈ s.classes ∨ .absolute ∈ s.classes
  · rw [Group.eq_of_symbol_mem hs hs' hsym] at hks'
    exact (List.prefix_of_prefix_length_le hks hks' (Nat.le_of_eq hlen)).eq_of_length hlen
  by_cases hsym' : .offset ∈ s'.classes ∨ .absolute ∈ s'.classes
  · rw [Group.eq_of_symbol_mem hs' hs hsym'] at hks
    exact (List.prefix_of_prefix_length_le hks hks' (Nat.le_of_eq hlen)).eq_of_length hlen
  have hplain : ∀ k ∈ ks, k ≠ .offset ∧ k ≠ .absolute := fun k hk => by
    have hmem := hks.subset hk
    grind
  have hplain' : ∀ k ∈ ks', k ≠ .offset ∧ k ≠ .absolute := fun k hk => by
    have hmem := hks'.subset hk
    grind
  exact h.unique h' hplain hplain'

/-- Operands have one shape of a group only. -/
theorem Group.eq_of_match {g : Group} {s s' : Shape} {toks : List Token} (hs : s ∈ g.shapes)
    (hs' : s' ∈ g.shapes) (h : Class.Match s.classes toks) (h' : Class.Match s'.classes toks) :
    s = s' := by
  have hks := Group.eq_of_match_prefix hs hs' List.prefix_rfl List.prefix_rfl h h'
  exact Group.eq_of_classes_prefix hs hs' (hks ▸ List.prefix_rfl)

/-! ### Candidates after some classes -/

namespace Candidates

/-- The candidates of a group after tokens of the given classes. -/
def after (g : Group) (ks : List Class) : Candidates :=
  ks.foldl advance (ofGroup g)

theorem after_concat (g : Group) (ks : List Class) (k : Class) :
    after g (ks ++ [k]) = (after g ks).advance k := by
  simp [after]

theorem mem_advance {cs : Candidates} {k : Class} {c : Candidate} :
    c ∈ cs.advance k ↔ ⟨c.shape, k :: c.rest⟩ ∈ cs := by
  simp only [advance, List.mem_filterMap]
  constructor
  · rintro ⟨⟨shape, rest⟩, hd, h⟩
    match rest with
    | [] => simp at h
    | head :: rest =>
      simp only [Option.ite_none_right_eq_some, Option.some.injEq] at h
      obtain ⟨rfl, rfl⟩ := h
      exact hd
  · intro h
    exact ⟨_, h, by simp⟩

/-- A candidate is a shape of the group that begins with the classes so far. -/
theorem mem_after {g : Group} {ks : List Class} {c : Candidate} :
    c ∈ after g ks ↔ c.shape ∈ g.shapes ∧ c.shape.classes = ks ++ c.rest := by
  induction ks using List.reverseRecOn generalizing c with
  | nil =>
    obtain ⟨shape, rest⟩ := c
    simp [after, ofGroup, eq_comm]
  | append_singleton ks k ih => rw [after_concat, mem_advance, ih, List.append_assoc]; rfl

/-- A shape is complete when its classes are the classes so far. -/
theorem complete?_after {g : Group} {ks : List Class} {s : Shape} :
    (after g ks).complete? = some s ↔ s ∈ g.shapes ∧ s.classes = ks := by
  simp only [complete?, Option.map_eq_some_iff]
  constructor
  · rintro ⟨c, hc, rfl⟩
    have hrest : c.rest = [] := by simpa using List.find?_some hc
    simpa [hrest] using mem_after.mp (List.mem_of_find?_eq_some hc)
  · rintro ⟨hs, rfl⟩
    have hmem : ⟨s, []⟩ ∈ after g s.classes := mem_after.mpr ⟨hs, by simp⟩
    obtain ⟨c, hc⟩ := Option.isSome_iff_exists.mp
      (List.find?_isSome.mpr ⟨_, hmem, by simp⟩ : ((after g s.classes).find? (·.rest = [])).isSome)
    have hrest : c.rest = [] := by simpa using List.find?_some hc
    obtain ⟨hcs, hcl⟩ := mem_after.mp (List.mem_of_find?_eq_some hc)
    rw [hrest, List.append_nil] at hcl
    exact ⟨c, hc, Group.eq_of_classes_prefix hcs hs (hcl ▸ List.prefix_rfl)⟩

/-- No shape is complete where another one goes on. -/
theorem complete?_after_eq_none {g : Group} {ks : List Class} {k : Class} {s : Shape}
    (hs : s ∈ g.shapes) (h : ks ++ [k] <+: s.classes) : (after g ks).complete? = none := by
  by_contra hne
  obtain ⟨s', hs'⟩ := Option.ne_none_iff_exists'.mp hne
  obtain ⟨hmem, rfl⟩ := complete?_after.mp hs'
  have heq := Group.eq_of_classes_prefix hmem hs ((List.prefix_append _ _).trans h)
  have hlen := h.length_le
  rw [heq, List.length_append, List.length_singleton] at hlen
  omega

theorem mem_expected {cs : Candidates} {k : Class} :
    k ∈ cs.expected ↔ ∃ c ∈ cs, c.rest.head? = some k := by
  simp [expected, Class.mem_all]

/-- A class is expected when it continues the classes so far to the beginning of a shape. -/
theorem mem_expected_after {g : Group} {ks : List Class} {k : Class} :
    k ∈ (after g ks).expected ↔ ∃ s ∈ g.shapes, ks ++ [k] <+: s.classes := by
  rw [mem_expected]
  constructor
  · rintro ⟨c, hc, hk⟩
    obtain ⟨hs, hcl⟩ := mem_after.mp hc
    obtain ⟨rest, hrest⟩ := List.head?_eq_some_iff.mp hk
    exact ⟨c.shape, hs, rest, by rw [hcl, hrest]; simp⟩
  · rintro ⟨s, hs, rest, hrest⟩
    exact ⟨⟨s, k :: rest⟩, mem_after.mpr ⟨hs, by rw [← hrest]; simp⟩, rfl⟩

/-- No token belongs to two of the classes expected at one place. -/
theorem eq_of_mem_expected_after {g : Group} {ks : List Class} {k k' : Class} {kind : Kind}
    (hk : k ∈ (after g ks).expected) (hk' : k' ∈ (after g ks).expected)
    (ha : k.accepts kind) (ha' : k'.accepts kind) : k = k' := by
  obtain ⟨s, hs, r, hr⟩ := mem_expected_after.mp hk
  obtain ⟨s', hs', r', hr'⟩ := mem_expected_after.mp hk'
  -- a symbol stands alone in its group, so a symbol class leaves no other shape to wait for
  by_cases hsym : (k = .offset ∨ k = .absolute) ∨ (k' = .offset ∨ k' = .absolute)
  · have hss : s = s' := by
      rcases hsym with h | h
      · refine (Group.eq_of_symbol_mem hs hs' ?_).symm
        rcases h with rfl | rfl <;> simp [← hr]
      · refine Group.eq_of_symbol_mem hs' hs ?_
        rcases h with rfl | rfl <;> simp [← hr']
    subst hss
    rw [← hr'] at hr
    simp only [List.append_assoc, List.append_cancel_left_eq] at hr
    exact (List.cons.inj hr).1
  · simp only [not_or] at hsym
    exact Class.eq_of_accepts ha ha' hsym.1 hsym.2

/-- The class that a token is taken for is the expected one that accepts it. -/
theorem find?_expected_after {g : Group} {ks : List Class} {k : Class} {kind : Kind} :
    (after g ks).expected.find? (·.accepts kind) = some k ↔
      k ∈ (after g ks).expected ∧ k.accepts kind := by
  constructor
  · intro h
    exact ⟨List.mem_of_find?_eq_some h, by simpa using List.find?_some h⟩
  · rintro ⟨hk, ha⟩
    obtain ⟨k', hk'⟩ := Option.isSome_iff_exists.mp
      (List.find?_isSome.mpr ⟨k, hk, ha⟩ :
        ((after g ks).expected.find? (·.accepts kind)).isSome)
    have ha' : k'.accepts kind := by simpa using List.find?_some hk'
    rw [hk', eq_of_mem_expected_after (List.mem_of_find?_eq_some hk') hk ha' ha]

end Candidates

end Asm8
