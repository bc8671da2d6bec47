import Asm8.Proofs.Encoding
import Asm8.Proofs.Grammar

/-!
The language of source texts that the first pass accepts.

The encoder does not know lines, only newline tokens, and its items may stand in any order that the
marks allow. On the tokens of a source text this comes to the same as the grammar of lines:

    tokens   t₁ t₂ ... newline      t₃ t₄ ... newline     ...      END ...
    items    label  ORG  newline    DB  comment  newline  ...
    lines    label? statement? comment?, one after the other,      label? END

Hence a source text is accepted exactly when its lines up to the first `END` are lines of the grammar
and the replay of what they say obeys the rules.
-/

namespace Asm8

/-! ### From lines to items -/

theorem Spell.append {t : Table} {is js : List Item} {xs ys : List Token} (h : Spell t is xs)
    (h' : Spell t js ys) : Spell t (is ++ js) (xs ++ ys) := by
  induction h with
  | nil => exact h'
  | cons hi _ ih => rw [List.append_assoc]; exact .cons hi ih

theorem Mark.after?_append (k : Mark) (is js : List Item) :
    k.after? (is ++ js) = (k.after? is).bind (·.after? js) := by
  simp [after?, List.foldlM_append]

theorem LabelPart.spell {xs : List Token} {is : List Item} (t : Table) (h : LabelPart xs is) :
    Spell t is xs := by
  cases h with
  | none => exact .nil
  | label h => exact .cons (.label h) .nil

theorem StatementPart.spell {t : Table} {xs : List Token} {is : List Item}
    (h : StatementPart t xs is) : Spell t is xs := by
  cases h with
  | none => exact .nil
  | origin hw h => exact .cons (.origin hw h) .nil
  | data hw h => exact .cons (.data hw h.datum?) .nil
  | instruction hw hm hg hs ho hc => simpa using Spell.cons (.instruction hw hm hg hs ho hc) .nil

theorem CommentPart.spell {t : Table} {xs : List Token} (h : CommentPart xs) :
    ∃ is, Spell t is xs ∧ (is = [] ∨ is = [.comment]) := by
  cases h with
  | none => exact ⟨[], .nil, .inl rfl⟩
  | comment h => exact ⟨[.comment], .cons (.comment h) .nil, .inr rfl⟩

theorem LabelPart.after? {xs : List Token} {is : List Item} (h : LabelPart xs is) :
    ∃ b, Mark.fresh.after? is = some ⟨b, false, false⟩ := by
  cases h with
  | none => exact ⟨false, rfl⟩
  | label h => exact ⟨true, rfl⟩

theorem StatementPart.after? {t : Table} {xs : List Token} {is : List Item}
    (h : StatementPart t xs is) (b : Bool) : ∃ k, Mark.after? ⟨b, false, false⟩ is = some k := by
  cases h <;> exact ⟨_, rfl⟩

/-- A line with its newline is written by items in an allowed order, with what the line says. -/
theorem Reads.spell {t : Table} {ts : List Token} {is : List Item} (h : Reads t ts is)
    (nl : Token) (hnl : nl.kind = .newline) :
    ∃ js, Spell t js (ts ++ [nl]) ∧ Mark.fresh.after? js = some .fresh ∧
      ∀ r : Replay, r.items js = r.items is := by
  obtain ⟨hl, hs, hc⟩ := h
  obtain ⟨ks, hks, hcomment⟩ := hc.spell (t := t)
  obtain ⟨b, hb⟩ := hl.after?
  obtain ⟨k, hk⟩ := hs.after? b
  refine ⟨_, ((hl.spell t).append (hs.spell.append hks)).append (.cons (.newline hnl) .nil), ?_, ?_⟩
  · rcases hcomment with rfl | rfl <;> simp [Mark.after?_append, hb, hk, Mark.next?]
  · intro r
    rcases hcomment with rfl | rfl <;> simp [Replay.items_append, Replay.item]

/-- A program in lines is a reading of its tokens. -/
theorem Program.reading {t : Table} {lines : List (List Char)} : ∀ {n : Nat}
    {body : List (List Item)} {label : List Item} {last : Token},
    Program t (Lexer.linesFrom n lines) body label last →
      ∃ is, Reading t (Lexer.tokensOfLines n lines) is last ∧
        ∀ r : Replay, r.items is = r.items (body.flatten ++ label) := by
  induction lines with
  | nil => intro n body label last h; cases h
  | cons cs lines ih =>
    intro n body label last h
    rw [Lexer.linesFrom_cons] at h
    generalize hts : Lexer.lineTokens n 1 cs = ts at h
    cases h with
    | final h =>
      obtain @⟨xs, rest, _, _, hl, hlast⟩ := h
      rw [Lexer.tokensOfLines_cons n cs lines (.inl (by simp [hts])), hts]
      obtain ⟨b, hb⟩ := hl.after?
      exact ⟨label, ⟨⟨xs, _, List.append_assoc _ _ _, hl.spell t⟩, ⟨_, hb, rfl⟩, hlast⟩, by simp⟩
    | line hends h hs =>
      have hne : lines ≠ [] := by rintro rfl; cases hs
      obtain ⟨is, ⟨⟨xs, rest, htoks, hsp⟩, ⟨k, hk, hp⟩, hlast⟩, hitems⟩ := ih hs
      obtain ⟨js, hjs, hfresh, heq⟩ := h.spell (Lexer.newlineAfter n cs) rfl
      rw [Lexer.tokensOfLines_cons n cs lines (.inr hne), hts, htoks]
      refine ⟨js ++ is, ⟨⟨_, rest, ?_, hjs.append hsp⟩, ⟨k, ?_, hp⟩, hlast⟩, fun r => ?_⟩
      · simp
      · rw [Mark.after?_append, hfresh]; exact hk
      · rw [Replay.items_append, heq, hitems, List.flatten_cons, List.append_assoc,
          ← Replay.items_append]

/-! ### From items to lines -/

/-- No token of an item is a newline, except in the item that is one. -/
theorem Item.Spells.kind_ne_newline {t : Table} {i : Item} {xs : List Token} (h : i.Spells t xs)
    (hi : i ≠ .newline) : ∀ tok ∈ xs, tok.kind ≠ .newline := by
  cases h with
  | newline => exact absurd rfl hi
  | comment h => simp [h]
  | label h => simp [h]
  | origin hw h =>
    rintro tok htok hnl
    rcases List.mem_pair.mp htok with rfl | rfl
    · simp [hw] at hnl
    · simp [hnl, Kind.hex?] at h
  | data hw h =>
    rintro tok htok hnl
    rcases List.mem_pair.mp htok with rfl | rfl
    · simp [hw] at hnl
    · simp [hnl, Kind.datum?, Kind.hex?] at h
  | instruction hw hm hg hs ho hc =>
    rintro tok htok hnl
    rcases List.mem_cons.mp htok with rfl | htok
    · simp [hw] at hnl
    · simpa [hnl, Kind.endsStatement] using hc.endsStatement_eq_false tok htok

/-- Tokens without a newline that begin a text begin its first line. -/
theorem append_newline_eq {nl : Token} (hnl : nl.kind = .newline) {ts more xs rest : List Token}
    (hx : ∀ tok ∈ xs, tok.kind ≠ .newline) (h : ts ++ nl :: more = xs ++ rest) :
    ∃ zs, ts = xs ++ zs ∧ zs ++ nl :: more = rest := by
  rcases List.append_eq_append_iff.mp h with ⟨as, rfl, has⟩ | ⟨zs, rfl, hzs⟩
  · cases as with
    | nil => exact ⟨[], by simp, has⟩
    | cons a as => exact absurd hnl (hx nl (by simp [(List.cons.inj has).1]))
  · exact ⟨zs, rfl, hzs.symm⟩

/-- What is left of a reading after one line: the reading of the text after its newline. -/
structure NextLine (t : Table) (more rest : List Token) (last : Token) (is : List Item) (k : Mark)
    (js : List Item) : Prop where
  tokens : ∃ ys, more = ys ++ last :: rest ∧ Spell t js ys
  order : Mark.fresh.after? js = some k
  replay : ∀ r : Replay, r.items is = r.items js

section

variable {t : Table} {n : Nat} {nl last : Token} {ts more xs rest : List Token} {is : List Item}
  {k k' : Mark}

/-- Where the line is at its end, the items go on with the next one. -/
theorem NextLine.of_nil (hnl : nl.kind = .newline) (hlast : last.kind = .word endMnemonic)
    (hsp : Spell t is xs) (h : nl :: more = xs ++ last :: rest) (hk : k.after? is = some k') :
    ∃ js, NextLine t more rest last is k' js := by
  cases hsp with
  | nil => rw [← (List.cons.inj h).1, hnl] at hlast; cases hlast
  | @cons i js xs ys hi hjs =>
    by_cases hi' : i = .newline
    · subst hi'
      cases hi
      exact ⟨js, ⟨⟨ys, (List.cons.inj h).2, hjs⟩, by simpa [Mark.next?] using hk, fun _ => rfl⟩⟩
    · exfalso
      have hne := hi.kind_ne_newline hi'
      cases hi <;> exact hne nl (by simp_all) hnl

/-- After a statement, and wherever a comment or a newline comes next, a comment may stand before the
line ends. -/
theorem NextLine.of_close (hline : Lexer.Line n ts) (hnl : nl.kind = .newline)
    (hlast : last.kind = .word endMnemonic) {i : Item} (hi : i = .comment ∨ i = .newline)
    (hsp : Spell t (i :: is) xs) (h : ts ++ nl :: more = xs ++ last :: rest)
    (hk : k.after? (i :: is) = some k') :
    CommentPart ts ∧ ∃ js, NextLine t more rest last (i :: is) k' js := by
  cases ts with
  | nil => exact ⟨.none, NextLine.of_nil hnl hlast hsp h hk⟩
  | cons tok ts =>
    cases hsp with
    | cons hspells hsp =>
    rcases hi with rfl | rfl
    · cases hspells with
      | @comment _ body hbody =>
      obtain ⟨rfl, hrest⟩ := List.cons.inj h
      cases hline with
      | comment =>
        obtain ⟨js, hjs⟩ := NextLine.of_nil hnl hlast hsp hrest hk
        exact ⟨.comment rfl, js, hjs.tokens, hjs.order, hjs.replay⟩
      | cons _ hc _ => exact absurd hbody (hc body)
    · cases hspells with
      | newline hbody =>
      obtain ⟨rfl, -⟩ := List.cons.inj h
      cases hline with
      | comment => cases hbody
      | cons hlexed _ _ => cases hbody; exact hlexed.elim

/-- A statement that is not yet closed wants a comment or a newline. -/
theorem Mark.close_of_pending {i : Item} (hp : k.pending = true)
    (hk : k.after? (i :: is) = some k') : i = .comment ∨ i = .newline := by
  cases i <;> simp_all [Mark.next?]

/-- After the label, if there is one, a line either ends the program or goes on with a statement and a
comment to the next line. -/
theorem line_cases (hline : Lexer.Line n ts) (hnl : nl.kind = .newline)
    (hlast : last.kind = .word endMnemonic) (hlabel : ∀ name line js, is ≠ .label name line :: js)
    (hsp : Spell t is xs) (h : ts ++ nl :: more = xs ++ last :: rest)
    (hk : k.after? is = some k') (hp : k'.pending = false) :
    (is = [] ∧ ∃ zs, ts = last :: zs) ∨
      ∃ ys zs js ks ls, ts = ys ++ zs ∧ StatementPart t ys js ∧ CommentPart zs ∧ is = js ++ ks ∧
        NextLine t more rest last ks k' ls := by
  cases hsp with
  | nil =>
    cases ts with
    | nil => rw [← (List.cons.inj h).1, hnl] at hlast; cases hlast
    | cons tok ts => exact .inl ⟨rfl, ts, by rw [(List.cons.inj h).1]⟩
  | @cons i is xs ys hi hsp =>
    right
    by_cases hclose : i = .comment ∨ i = .newline
    · obtain ⟨hc, js, hjs⟩ := NextLine.of_close hline hnl hlast hclose (.cons hi hsp) h hk
      exact ⟨[], ts, [], _, js, rfl, .none, hc, rfl, hjs⟩
    · rw [not_or] at hclose
      rw [List.append_assoc] at h
      obtain ⟨zs, rfl, hzs⟩ := append_newline_eq hnl (hi.kind_ne_newline hclose.2) h
      obtain ⟨k₁, hk₁, hk⟩ := Option.bind_eq_some_iff.mp hk
      have hp₁ : k₁.pending = true := by
        cases i <;> simp_all [Mark.next?] <;> grind
      have hstatement : StatementPart t xs [i] := by
        cases hi with
        | comment => exact absurd rfl hclose.1
        | newline => exact absurd rfl hclose.2
        | label => exact absurd rfl (hlabel _ _ _)
        | origin hw haddress => exact .origin hw haddress
        | data hw hbytes =>
          cases hline.tail with
          | comment => simp [Kind.datum?, Kind.hex?] at hbytes
          | cons hlexed _ _ => exact .data hw (hlexed.writes hbytes)
        | instruction hw hm hg hs ho hc => exact .instruction hw hm hg hs ho hc
      cases is with
      | nil => cases hk; rw [hp] at hp₁; cases hp₁
      | cons j is =>
        obtain ⟨hc, js, hjs⟩ :=
          NextLine.of_close hline.of_append hnl hlast (Mark.close_of_pending hp₁ hk) hsp hzs hk
        exact ⟨xs, zs, [i], j :: is, js, rfl, hstatement, hc, rfl, hjs⟩

theorem NextLine.reading {js : List Item} (h : NextLine t more rest last is k js)
    (hp : k.pending = false) (hlast : last.kind = .word endMnemonic) : Reading t more js last :=
  ⟨h.tokens.imp fun _ hys => ⟨rest, hys⟩, ⟨k, h.order, hp⟩, hlast⟩

/-- The first line of a reading either ends the program or says what its items say, and then the
reading goes on after it. -/
theorem Reading.line_cases (hline : Lexer.Line n ts) (hnl : nl.kind = .newline)
    (h : Reading t (ts ++ nl :: more) is last) :
    Ends ts is last ∨ ∃ js ks, Reads t ts js ∧ Reading t more ks last ∧
      ∀ r : Replay, r.items is = r.items (js ++ ks) := by
  obtain ⟨⟨xs, rest, htoks, hsp⟩, ⟨k, hk, hp⟩, hlast⟩ := h
  by_cases hlabel : ∃ name line js, is = .label name line :: js
  · obtain ⟨name, line, is, rfl⟩ := hlabel
    cases hsp with
    | cons hi hsp =>
    rw [List.append_assoc] at htoks
    obtain ⟨zs, rfl, hzs⟩ := append_newline_eq hnl (hi.kind_ne_newline (by simp)) htoks
    cases hi with
    | label hname =>
    -- a second label may not stand on the line
    have hnext : ∀ name line js, is ≠ .label name line :: js := by
      rintro name' line' js rfl
      simp [Mark.next?, Mark.fresh] at hk
    obtain ⟨rfl, zs, rfl⟩ | ⟨ys, zs, js, ks, ls, rfl, hs, hc, rfl, hls⟩ :=
      Asm8.line_cases hline.of_append hnl hlast hnext hsp hzs hk hp
    · exact .inl (.line (.label hname) hlast)
    · refine .inr ⟨_, ls, .line (.label hname) hs hc, hls.reading hp hlast, fun r => ?_⟩
      simp [Replay.items_append, hls.replay]
  · have hnext : ∀ name line js, is ≠ .label name line :: js :=
      fun name line js heq => hlabel ⟨name, line, js, heq⟩
    obtain ⟨rfl, zs, rfl⟩ | ⟨ys, zs, js, ks, ls, rfl, hs, hc, rfl, hls⟩ :=
      Asm8.line_cases hline hnl hlast hnext hsp htoks hk hp
    · exact .inl (.line .none hlast)
    · refine .inr ⟨_, ls, .line .none hs hc, hls.reading hp hlast, fun r => ?_⟩
      simp [Replay.items_append, hls.replay]

end

/-- A reading of the tokens of a text is a program in its lines. -/
theorem Reading.program {t : Table} {last : Token} {lines : List (List Char)} :
    ∀ {n : Nat} {is : List Item}, Reading t (Lexer.tokensOfLines n lines) is last →
      ∃ body label, Program t (Lexer.linesFrom n lines) body label last ∧
        ∀ r : Replay, r.items is = r.items (body.flatten ++ label) := by
  induction lines with
  | nil =>
    rintro n is ⟨⟨xs, rest, htoks, -⟩, -, -⟩
    simp [Lexer.tokensOfLines] at htoks
  | cons cs lines ih =>
    intro n is h
    by_cases hempty : Lexer.lineTokens n 1 cs ≠ [] ∨ lines ≠ []
    · rw [Lexer.tokensOfLines_cons n cs lines hempty] at h
      rw [Lexer.linesFrom_cons]
      rcases h.line_cases (Lexer.line_lineTokens n 1 cs) rfl with
        hends | ⟨js, ks, hreads, hrest, heq⟩
      · exact ⟨[], is, .final hends, fun _ => rfl⟩
      · obtain ⟨body, label, hprogram, hitems⟩ := ih hrest
        refine ⟨js :: body, label, .line hreads.not_ends hreads hprogram, fun r => ?_⟩
        rw [heq, Replay.items_append, hitems, ← Replay.items_append, List.flatten_cons,
          List.append_assoc]
    · simp only [not_or, not_not] at hempty
      obtain ⟨xs, rest, htoks, -⟩ := h.tokens
      rw [hempty.2, Lexer.tokensOfLines, hempty.1] at htoks
      simp at htoks

/-! ### The language -/

/-- What the tokens of a source text say, its lines say as a program. -/
theorem Reading.exists_program {t : Table} {source : String} {is : List Item} {last : Token}
    (h : Reading t (tokenize source) is last) :
    ∃ body label, Program t (Lexer.sourceTokens source) body label last ∧
      ∀ r : Replay, r.items is = r.items (body.flatten ++ label) := by
  rw [tokenize_eq_tokensOfLines] at h
  exact h.program

theorem Replay.program_congr {is js : List Item} (h : ∀ r : Replay, r.items is = r.items js)
    (t : Table) (line : Nat) : program t is line = program t js line := by
  rw [program, program, h]

/-- The first pass accepts exactly the source texts that are programs in lines whose replay obeys the
rules. -/
theorem encode_tokenize_ok_iff (t : Table) (source : String) :
    (∃ e, encode t (tokenize source) = .ok e) ↔
      ∃ body label last, Program t (Lexer.sourceTokens source) body label last ∧
        (Replay.program t (body.flatten ++ label) last.line).Sound := by
  constructor
  · rintro ⟨e, he⟩
    obtain ⟨is, last, hread, hsound, -⟩ := encode_reading he
    obtain ⟨body, label, hprogram, hitems⟩ := hread.exists_program
    exact ⟨body, label, last, hprogram, Replay.program_congr hitems t last.line ▸ hsound⟩
  · rintro ⟨body, label, last, hprogram, hsound⟩
    obtain ⟨is, hread, hitems⟩ := hprogram.reading
    rw [tokenize_eq_tokensOfLines]
    exact exists_encode hread (Replay.program_congr hitems t last.line ▸ hsound)

end Asm8
