import Asm8.Proofs.Language

/-!
A list of tokens reads in one way.

Items are found one after the other from the left. The first token says what kind of item begins, and
among the shapes of a mnemonic no one goes on where another one is complete, so that the tokens of
one item are never the beginning of another item's tokens. `END` begins no item. A reading can be
taken apart after every newline, since no statement goes on behind it.

    xs ... newline | ys ... END rest
    js ... newline | ks ...
-/

namespace Asm8

/-! ### One reading -/

/-- Operands that begin the operands of another shape of the group are all of them. -/
theorem Group.eq_of_match_append {g : Group} {s s' : Shape} {xs ys : List Token}
    (hs : s ∈ g.shapes) (hs' : s' ∈ g.shapes) (h : Class.Match s.classes xs)
    (h' : Class.Match s'.classes (xs ++ ys)) : s = s' ∧ ys = [] := by
  have hlen : s.classes.length = xs.length := h.length_eq
  have hlen' : s'.classes.length = (xs ++ ys).length := h'.length_eq
  have htake : Class.Match (s'.classes.take xs.length) xs := List.forall₂_take_append _ _ _ h'
  have hks := Group.eq_of_match_prefix hs hs' List.prefix_rfl (List.take_prefix _ _) h htake
  have heq : s = s' := Group.eq_of_classes_prefix hs hs' (hks ▸ List.take_prefix _ _)
  subst heq
  rw [hlen, List.length_append] at hlen'
  exact ⟨rfl, List.length_eq_zero_iff.mp (by omega)⟩

/-- The tokens of an item are not empty, and the first of them is not `END`. -/
theorem Item.Spells.exists_cons {t : Table} {i : Item} {xs : List Token} (h : i.Spells t xs) :
    ∃ tok ys, xs = tok :: ys ∧ tok.kind ≠ .word endMnemonic := by
  cases h with
  | comment h => exact ⟨_, _, rfl, by simp [h]⟩
  | newline h => exact ⟨_, _, rfl, by simp [h]⟩
  | label h => exact ⟨_, _, rfl, by simp [h]⟩
  | origin hw _ => exact ⟨_, _, rfl, by simp [hw, endMnemonic]⟩
  | data hw _ => exact ⟨_, _, rfl, by simp [hw, endMnemonic]⟩
  | instruction hw hm _ _ _ _ =>
    refine ⟨_, _, rfl, fun heq => hm (.inr (.inr ?_))⟩
    rw [hw] at heq
    exact Kind.word.inj heq

/-- The same tokens do not begin with two items. -/
theorem Item.Spells.unique {t : Table} {i i' : Item} {xs xs' rest rest' : List Token}
    (h : i.Spells t xs) (h' : i'.Spells t xs') (heq : xs ++ rest = xs' ++ rest') :
    i = i' ∧ xs = xs' := by
  cases h with
  | comment h =>
    cases h' <;> obtain ⟨rfl, -⟩ := List.cons.inj heq <;> simp_all
  | newline h =>
    cases h' <;> obtain ⟨rfl, -⟩ := List.cons.inj heq <;> simp_all
  | label h =>
    cases h' <;> obtain ⟨rfl, -⟩ := List.cons.inj heq <;> simp_all
  | origin hw h =>
    cases h' <;> obtain ⟨rfl, hrest⟩ := List.cons.inj heq <;> simp_all [IsDirective]
  | data hw h =>
    cases h' <;> obtain ⟨rfl, hrest⟩ := List.cons.inj heq <;> simp_all [IsDirective]
  | @instruction w m g s opcode toks hw hm hg hs ho hc =>
    cases h' with
    | @instruction w' m' g' s' opcode' toks' hw' hm' hg' hs' ho' hc' =>
      obtain ⟨rfl, hrest⟩ := List.cons.inj heq
      cases Kind.word.inj (hw.symm.trans hw')
      cases Option.some.inj (hg.symm.trans hg')
      obtain ⟨rfl, rfl⟩ : s = s' ∧ toks = toks' := by
        rcases List.append_eq_append_iff.mp hrest with ⟨as, rfl, -⟩ | ⟨as, rfl, -⟩
        · obtain ⟨rfl, rfl⟩ := Group.eq_of_match_append hs hs' hc hc'
          simp
        · obtain ⟨rfl, rfl⟩ := Group.eq_of_match_append hs' hs hc' hc
          simp
      cases Option.some.inj (ho.symm.trans ho')
      exact ⟨rfl, rfl⟩
    | _ => obtain ⟨rfl, -⟩ := List.cons.inj heq; simp_all [IsDirective]

/-- Items up to `END` are found in one way. -/
theorem Spell.unique {t : Table} {is : List Item} {xs : List Token} (h : Spell t is xs) :
    ∀ {is' : List Item} {xs' rest rest' : List Token} {last last' : Token}, Spell t is' xs' →
      last.kind = .word endMnemonic → last'.kind = .word endMnemonic →
      xs ++ last :: rest = xs' ++ last' :: rest' → is = is' ∧ last = last' := by
  induction h with
  | nil =>
    intro is' xs' rest rest' last last' h' hlast hlast' heq
    cases h' with
    | nil => exact ⟨rfl, (List.cons.inj heq).1⟩
    | cons hi _ =>
      obtain ⟨tok, ys, rfl, htok⟩ := hi.exists_cons
      exact absurd ((List.cons.inj heq).1 ▸ hlast) htok
  | @cons i is xs ys hi _ ih =>
    intro is' xs' rest rest' last last' h' hlast hlast' heq
    cases h' with
    | nil =>
      obtain ⟨tok, zs, rfl, htok⟩ := hi.exists_cons
      exact absurd ((List.cons.inj heq).1 ▸ hlast') htok
    | cons hi' h' =>
      rw [List.append_assoc, List.append_assoc] at heq
      obtain ⟨rfl, rfl⟩ := hi.unique hi' heq
      obtain ⟨rfl, rfl⟩ := ih h' hlast hlast' (List.append_cancel_left heq)
      exact ⟨rfl, rfl⟩

/-- A list of tokens has one reading. -/
theorem Reading.unique {t : Table} {toks : List Token} {is is' : List Item} {last last' : Token}
    (h : Reading t toks is last) (h' : Reading t toks is' last') : is = is' ∧ last = last' := by
  obtain ⟨xs, rest, htoks, hsp⟩ := h.tokens
  obtain ⟨xs', rest', htoks', hsp'⟩ := h'.tokens
  exact hsp.unique hsp' h.ends h'.ends (htoks.symm.trans htoks')

/-! ### Readings in parts -/

/-- After a newline the items go on afresh. -/
theorem Spell.split {t : Table} {is : List Item} {zs : List Token} (h : Spell t is zs) :
    ∀ {xs ys : List Token} {nl : Token}, nl.kind = .newline → zs = xs ++ nl :: ys →
      ∃ js ks, is = js ++ .newline :: ks ∧ Spell t (js ++ [.newline]) (xs ++ [nl]) ∧
        Spell t ks ys := by
  induction h with
  | nil => intro xs ys nl _ heq; simp at heq
  | @cons i is zs ws hi hs ih =>
    intro xs ys nl hnl heq
    by_cases hi' : i = .newline
    · subst hi'
      cases hi with
      | @newline tok htok =>
      cases xs with
      | nil =>
        obtain ⟨rfl, rfl⟩ := List.cons.inj heq
        exact ⟨[], is, rfl, by simpa using Spell.cons (.newline htok) .nil, hs⟩
      | cons x xs =>
        obtain ⟨rfl, hws⟩ := List.cons.inj heq
        obtain ⟨js, ks, rfl, hjs, hks⟩ := ih hnl hws
        exact ⟨.newline :: js, ks, rfl, by simpa using Spell.cons (.newline htok) hjs, hks⟩
    · obtain ⟨vs, rfl, hvs⟩ := append_newline_eq hnl (hi.kind_ne_newline hi') heq.symm
      obtain ⟨js, ks, rfl, hjs, hks⟩ := ih hnl hvs.symm
      refine ⟨i :: js, ks, rfl, ?_, hks⟩
      rw [List.append_assoc]
      exact .cons hi hjs

/-- After a newline the marks of the line are gone. -/
theorem Mark.after?_newline {k k' : Mark} {js ks : List Item}
    (h : k.after? (js ++ .newline :: ks) = some k') :
    k.after? (js ++ [.newline]) = some .fresh ∧ fresh.after? ks = some k' := by
  rw [after?_append] at h
  obtain ⟨k₁, hk₁, hk⟩ := Option.bind_eq_some_iff.mp h
  rw [after?_append, hk₁]
  exact ⟨rfl, hk⟩

/-- Tokens up to a newline, and without `END`, are read apart from what comes after them. -/
theorem Reading.split {t : Table} {xs toks : List Token} {nl last : Token} {is : List Item}
    (h : Reading t (xs ++ nl :: toks) is last) (hnl : nl.kind = .newline)
    (hend : ∀ tok ∈ xs, tok.kind ≠ .word endMnemonic) :
    ∃ js ks, is = js ++ ks ∧ Spell t js (xs ++ [nl]) ∧ Mark.fresh.after? js = some .fresh ∧
      Reading t toks ks last := by
  obtain ⟨⟨ys, rest, htoks, hsp⟩, ⟨k, hk, hp⟩, hlast⟩ := h
  obtain ⟨zs, rfl, rfl⟩ : ∃ zs, ys = xs ++ nl :: zs ∧ toks = zs ++ last :: rest := by
    rcases List.append_eq_append_iff.mp htoks with ⟨as, rfl, has⟩ | ⟨as, rfl, has⟩
    · cases as with
      | nil => rw [← (List.cons.inj has).1, hnl] at hlast; cases hlast
      | cons a as =>
        obtain ⟨rfl, rfl⟩ := List.cons.inj has
        exact ⟨as, rfl, rfl⟩
    · cases as with
      | nil => rw [(List.cons.inj has).1, hnl] at hlast; cases hlast
      | cons a as =>
        obtain ⟨rfl, -⟩ := List.cons.inj has
        exact absurd hlast (hend last (by simp))
  obtain ⟨js, ks, rfl, hjs, hks⟩ := hsp.split hnl rfl
  obtain ⟨hfresh, hk⟩ := Mark.after?_newline hk
  exact ⟨js ++ [.newline], ks, by simp, hjs, hfresh, ⟨⟨zs, rest, rfl, hks⟩, ⟨k, hk, hp⟩, hlast⟩⟩

/-- Items on lines of their own may be put in front of a reading. -/
theorem Reading.prepend {t : Table} {xs toks : List Token} {js ks : List Item} {last : Token}
    (h : Reading t toks ks last) (hsp : Spell t js xs)
    (hfresh : Mark.fresh.after? js = some .fresh) : Reading t (xs ++ toks) (js ++ ks) last := by
  obtain ⟨⟨ys, rest, rfl, hks⟩, ⟨k, hk, hp⟩, hlast⟩ := h
  refine ⟨⟨xs ++ ys, rest, by simp, hsp.append hks⟩, ⟨k, ?_, hp⟩, hlast⟩
  rw [Mark.after?_append, hfresh]
  exact hk

end Asm8
