import Asm8.Proofs.Opcodes
import Asm8.Proofs.Operands

/-!
Operands make progress until a shape is complete.

The candidates after some classes are the shapes of the group that begin with these classes, each with
what is left of it. Classes that fit nothing, and classes behind a complete shape, leave no candidate:

    group of MOV             candidates                                     expected
    [ REG ]                  [REG],REG                                      ,
    [ REG ] ,                [REG],REG                                      REG
    [ REG ] , REG            [REG],REG, complete
    [ REG ] , REG ,          none

As long as there is a candidate, either it is complete and the only one, or some class is expected and
the longest shape is not used up yet. So reading operands comes to a complete shape or to a fault, within
as many tokens as the longest shape of the group has.
-/

namespace Asm8

/-- The number of operand tokens of the longest shape of the group. -/
def Group.longest (g : Group) : Nat :=
  (g.shapes.map (·.classes.length)).foldr max 0

theorem Group.length_classes_le {g : Group} {s : Shape} (hs : s ∈ g.shapes) :
    s.classes.length ≤ g.longest := by
  have hall : ∀ a ∈ g.shapes, a.classes.length ≤ g.longest := by
    cases g <;> decide
  exact hall s hs

namespace Candidates

variable {g : Group} {ks : List Class} {s : Shape} {cs : Candidates}

/-! ### Shapes that begin with some classes -/

/-- The shapes of a list that begin with the classes, each with what is left of it. -/
def beginning (ks : List Class) (shapes : List Shape) : Candidates :=
  (shapes.filter (ks <+: ·.classes)).map fun s => ⟨s, s.classes.drop ks.length⟩

theorem beginning_cons_of_eq {ks rest : List Class} (h : s.classes = ks ++ rest)
    (shapes : List Shape) : beginning ks (s :: shapes) = ⟨s, rest⟩ :: beginning ks shapes := by
  simp [beginning, h]

theorem beginning_cons_of_not (h : ¬ks <+: s.classes) (shapes : List Shape) :
    beginning ks (s :: shapes) = beginning ks shapes := by
  simp [beginning, h]

/-- One class more leaves the shapes that begin with one class more. -/
theorem advance_beginning (ks : List Class) (k : Class) (shapes : List Shape) :
    (beginning ks shapes).advance k = beginning (ks ++ [k]) shapes := by
  induction shapes with
  | nil => rfl
  | cons s shapes ih =>
    by_cases hks : ks <+: s.classes
    · obtain ⟨rest, hrest⟩ := hks
      rw [beginning_cons_of_eq hrest.symm]
      have hnext : ks ++ [k] <+: s.classes ↔ [k] <+: rest := by
        rw [← hrest, List.prefix_append_right_inj]
      -- of the shape is left: nothing, the class and more, or something else
      cases rest with
      | nil =>
        rw [beginning_cons_of_not (by simp [hnext]), ← ih]
        rfl
      | cons k' rest =>
        by_cases hk : k' = k
        · subst hk
          have hone : s.classes = ks ++ [k'] ++ rest := by simp [← hrest]
          rw [beginning_cons_of_eq hone, ← ih]
          simp [advance]
        · rw [beginning_cons_of_not (by simp [hnext, Ne.symm hk]), ← ih]
          simp [advance, hk]
    · have hnot : ¬ks ++ [k] <+: s.classes := fun h => hks ((List.prefix_append _ _).trans h)
      rw [beginning_cons_of_not hks, beginning_cons_of_not hnot, ih]

/-- The candidates are the shapes that begin with the classes so far. -/
theorem after_eq_beginning (g : Group) (ks : List Class) : after g ks = beginning ks g.shapes := by
  induction ks using List.reverseRecOn with
  | nil => simp [after, ofGroup, beginning]
  | append_singleton ks k ih => rw [after_concat, ih, advance_beginning]

/-- A complete shape is the only candidate. -/
theorem after_eq_singleton (h : (after g ks).complete? = some s) : after g ks = [⟨s, []⟩] := by
  obtain ⟨hs, rfl⟩ := complete?_after.mp h
  have honly : g.shapes.filter (s.classes <+: ·.classes) = g.shapes.filter (· == s) := by
    refine List.filter_congr fun s' hs' => ?_
    rw [decide_eq_decide.mpr ?_, beq_eq_decide]
    constructor
    · exact fun hpre => (Group.eq_of_classes_prefix hs hs' hpre).symm
    · rintro rfl
      exact List.prefix_rfl
  rw [after_eq_beginning, beginning, honly, List.filter_beq,
    List.count_eq_one_of_mem g.nodup_shapes hs]
  simp

/-! ### Expected classes -/

/-- Classes are expected in their order, and each once. -/
theorem pairwise_expected (cs : Candidates) :
    cs.expected.Pairwise (·.ctorIdx < ·.ctorIdx) := by
  have hall : Class.all.Pairwise (·.ctorIdx < ·.ctorIdx) := by decide
  exact hall.filter _

/-- Where there are candidates but none is complete, some class is expected. -/
theorem expected_ne_nil (hcs : cs ≠ []) (hnone : cs.complete? = none) : cs.expected ≠ [] := by
  obtain ⟨c, hc⟩ := List.exists_mem_of_ne_nil cs hcs
  have hrest : c.rest ≠ [] := by
    rw [complete?, Option.map_eq_none_iff, List.find?_eq_none] at hnone
    simpa using hnone c hc
  obtain ⟨k, rest, hk⟩ := List.exists_cons_of_ne_nil hrest
  exact List.ne_nil_of_mem (mem_expected.mpr ⟨c, hc, by rw [hk]; rfl⟩)

theorem length_le_longest (h : after g ks ≠ []) : ks.length ≤ g.longest := by
  obtain ⟨c, hc⟩ := List.exists_mem_of_ne_nil _ h
  obtain ⟨hs, hcl⟩ := mem_after.mp hc
  have hle := Group.length_classes_le hs
  rw [hcl, List.length_append] at hle
  omega

/-- Where a class is expected, the longest shape is not used up. -/
theorem length_lt_longest (h : (after g ks).expected ≠ []) : ks.length < g.longest := by
  obtain ⟨k, hk⟩ := List.exists_mem_of_ne_nil _ h
  obtain ⟨s, hs, hpre⟩ := mem_expected_after.mp hk
  have hle := hpre.length_le.trans (Group.length_classes_le hs)
  rwa [List.length_append, List.length_singleton] at hle

end Candidates

/-! ### Reading operands -/

namespace Encoder

/-- Reading operands takes the tokens, one after the other, and leads from one state to another. -/
inductive Takes (t : Table) : Encoder → List Token → Encoder → Prop where
  | nil (s : Encoder) : Takes t s [] s
  | cons {s s₁ s' : Encoder} {i : Instruction} {live : Candidates} {tok : Token}
      {toks : List Token} (he : s.expects = .operand i live) (hstep : step t s tok = .ok s₁)
      (h : Takes t s₁ toks s') : Takes t s (tok :: toks) s'

variable {t : Table} {s s' : Encoder} {i : Instruction} {toks : List Token}

theorem Takes.operands_eq (h : Takes t s toks s') (rest : List Token) :
    operands t s (toks ++ rest) = operands t s' rest := by
  induction h with
  | nil s => rfl
  | cons he hstep _ ih =>
    rw [List.cons_append, operands_cons he, hstep]
    exact ih

/-- Whatever tokens are taken, they belong to the beginning of a shape. -/
theorem Takes.begins (h : Takes t s toks s') : ∀ {ks : List Class} {xs : List Token},
    i.group.Begins ks xs → s.expects = operandsOf i (.after i.group ks) →
      ∃ ks', i.group.Begins ks' (xs ++ toks) ∧ s'.expects = operandsOf i (.after i.group ks') := by
  induction h with
  | nil s =>
    intro ks xs hbegins he
    exact ⟨ks, by simpa using hbegins, he⟩
  | @cons s s₁ s' j live tok toks he hstep _ ih =>
    intro ks xs hbegins hs
    -- an operand is expected, so no shape is complete after the classes so far
    have hoperand : s.expects = .operand i (.after i.group ks) := by
      rw [hs, operandsOf] at he ⊢
      split at he
      · cases he
      · rfl
    obtain ⟨k, hk, ha, he₁⟩ := expects_of_step_operand hoperand hstep
    obtain ⟨ks', hbegins', hs'⟩ := ih (hbegins.concat hk ha) he₁
    exact ⟨ks', by simpa using hbegins', hs'⟩

/-- With every token that is taken, reading is either done with a shape of so many tokens, or waits for
one of the expected classes, of which there are some, and the longest shape has more tokens. -/
theorem Takes.complete_or_expects (h : Takes t (s.opens i) toks s') :
    (∃ shape ∈ i.group.shapes, s'.expects = .close (some (i, shape)) ∧
      shape.classes.length = toks.length) ∨
    ∃ live, s'.expects = .operand i live ∧ live.expected ≠ [] ∧ toks.length < i.group.longest := by
  obtain ⟨ks, ⟨⟨shape, hs, hks⟩, hm⟩, he⟩ := h.begins i.group.begins_nil rfl
  have hlen : ks.length = toks.length := by simpa using hm.length_eq
  unfold operandsOf at he
  split at he
  · next shape' hcomplete =>
    obtain ⟨hs', rfl⟩ := Candidates.complete?_after.mp hcomplete
    exact .inl ⟨shape', hs', he, hlen⟩
  · next hcomplete =>
    obtain ⟨rest, hrest⟩ := hks
    have hlive : Candidates.after i.group ks ≠ [] :=
      List.ne_nil_of_mem (Candidates.mem_after.mpr ⟨hs, hrest.symm⟩ : ⟨shape, rest⟩ ∈ _)
    have hexpected := Candidates.expected_ne_nil hlive hcomplete
    exact .inr ⟨_, he, hexpected, hlen ▸ Candidates.length_lt_longest hexpected⟩

end Encoder

open Encoder

/-- After any classes the candidates of a group are the shapes that begin with these classes, each with
the classes that are left. A shape is complete exactly if these are all its classes, and then it is the
only candidate. Expected are, in their order and each once, the classes that continue the classes so far
to the beginning of a shape. If there is a candidate but none is complete, some class is expected. So
reading operands, at any time, either has found a shape or waits for a class, and it never takes more
tokens than the longest shape has. -/
theorem Candidates.after_follows_shapes (g : Group) (ks : List Class) :
    after g ks = (g.shapes.filter (ks <+: ·.classes)).map (fun s => ⟨s, s.classes.drop ks.length⟩) ∧
    (∀ s, (after g ks).complete? = some s ↔ s ∈ g.shapes ∧ s.classes = ks) ∧
    (∀ s, (after g ks).complete? = some s → after g ks = [⟨s, []⟩]) ∧
    (after g ks).expected.Pairwise (·.ctorIdx < ·.ctorIdx) ∧
    (∀ k, k ∈ (after g ks).expected ↔ ∃ s ∈ g.shapes, ks ++ [k] <+: s.classes) ∧
    (after g ks ≠ [] → ks.length ≤ g.longest) ∧
    (after g ks ≠ [] → (after g ks).complete? = none →
      (after g ks).expected ≠ [] ∧ ks.length < g.longest) ∧
    ∀ (t : Table) (s : Encoder) (i : Instruction) toks s', i.group = g → Takes t (s.opens i) toks s' →
      (∀ rest, operands t (s.opens i) (toks ++ rest) = operands t s' rest) ∧
      toks.length ≤ g.longest ∧
      ((∃ shape ∈ g.shapes, s'.expects = .close (some (i, shape)) ∧
          shape.classes.length = toks.length) ∨
        ∃ live, s'.expects = .operand i live ∧ live.expected ≠ [] ∧ toks.length < g.longest) := by
  refine ⟨after_eq_beginning g ks, fun s => complete?_after, fun s => after_eq_singleton,
    pairwise_expected _, fun k => mem_expected_after, length_le_longest, fun hlive hnone => ?_, ?_⟩
  · have hexpected := expected_ne_nil hlive hnone
    exact ⟨hexpected, length_lt_longest hexpected⟩
  · rintro t s i toks s' rfl htakes
    have hcases := htakes.complete_or_expects
    refine ⟨htakes.operands_eq, ?_, hcases⟩
    rcases hcases with ⟨shape, hs, -, hlen⟩ | ⟨live, -, -, hlt⟩
    · exact hlen ▸ Group.length_classes_le hs
    · exact Nat.le_of_lt hlt

/-- The tokens of `[BL],`. -/
def bracketedRegister : List Token :=
  [⟨.openBracket, 1, 1⟩, ⟨.word "BL", 1, 2⟩, ⟨.closeBracket, 1, 4⟩, ⟨.comma, 1, 5⟩]

/-- Behind a register in brackets and a comma, `MOV` waits for the last of five tokens, a register. -/
theorem Candidates.after_follows_shapes_move :
    after .move [.openBracket, .register, .closeBracket, .comma] =
      [⟨.atRegisterRegister, [.register]⟩] ∧
    (after .move [.openBracket, .register, .closeBracket, .comma]).expected ≠ [] ∧
    (after .move Shape.atRegisterRegister.classes).complete? = some .atRegisterRegister ∧
    after .move Shape.atRegisterRegister.classes = [⟨.atRegisterRegister, []⟩] ∧
    ∃ s', Takes .jumps (start.opens ⟨"MOV", .move, 0⟩) bracketedRegister s' ∧
      bracketedRegister.length ≤ Group.move.longest ∧ Group.move.longest = 5 := by
  obtain ⟨hlive, -, -, -, -, -, hwaits, hreads⟩ :=
    after_follows_shapes .move [.openBracket, .register, .closeBracket, .comma]
  obtain ⟨-, hcomplete, honly, -⟩ := after_follows_shapes .move Shape.atRegisterRegister.classes
  have hfound := (hcomplete .atRegisterRegister).mpr ⟨by decide, rfl⟩
  have htakes : ∃ s', Takes .jumps (start.opens ⟨"MOV", .move, 0⟩) bracketedRegister s' :=
    ⟨_, .cons rfl rfl (.cons rfl rfl (.cons rfl rfl (.cons rfl rfl (.nil _))))⟩
  obtain ⟨s', hs'⟩ := htakes
  refine ⟨hlive, (hwaits ?_ ?_).1, hfound, honly _ hfound, s', hs', ?_, rfl⟩
  · rw [hlive]
    decide
  · rw [hlive]
    decide
  · exact (hreads _ _ _ _ _ rfl hs').2.1

end Asm8
