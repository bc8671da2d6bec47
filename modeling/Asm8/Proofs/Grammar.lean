import Asm8.Proofs.LineTokens
import Asm8.Proofs.Statement

/-!
The grammar of source texts, line by line.

    line  =  label?  statement?  comment?
    last  =  label?  END  anything
    statement  =  ORG number  |  DB literal  |  mnemonic operands

Each part of a line comes with the items that it says. A line can be read in one way only, so that a
source text says one list of items. The lexer does its share: within a line there is no newline
token, a comment is the last token of its line, and a literal begins with its quote.
-/

namespace Asm8

/-! ### Literals -/

/-- How a source text writes the literal of `DB`: a number, one printable character in single quotes,
or some of them in double quotes. -/
inductive Literal.Writes : Kind → List UInt8 → Prop
  | number {kind : Kind} {b : UInt8} (h : kind.hex? = some b) : Writes kind [b]
  | character {c : Char} (h : isPrintable c) :
    Writes (.character (String.ofList ['\'', c, '\''])) [byte c]
  | string {cs : List Char} (hne : cs ≠ []) (h : ∀ c ∈ cs, isPrintable c) :
    Writes (.string (String.ofList ('"' :: cs ++ ['"']))) (cs.map byte)

/-- A literal in a source text has its bytes. -/
theorem Literal.Writes.datum? {kind : Kind} {bs : List UInt8} (h : Literal.Writes kind bs) :
    kind.datum? = some bs := by
  cases h with
  | @number kind b h =>
    cases kind with
    | word w => simp [Kind.datum?, h]
    | _ => simp [Kind.hex?] at h
  | @character c h => simp [Kind.datum?, Literal.character, h]
  | @string cs hne h =>
    have hquote : Literal.isPrintable '"' := by decide
    have hprint : (('"' :: cs ++ ['"']).find? fun c => !Literal.isPrintable c) = none := by
      rw [List.find?_eq_none]
      intro c hc
      rcases List.mem_append.mp hc with hc | hc
      · rcases List.mem_cons.mp hc with rfl | hc
        · simp [hquote]
        · simp [h c hc]
      · rw [List.mem_singleton.mp hc]; simp [hquote]
    have hclosed : ¬(('"' :: cs ++ ['"']).length < 2 ∨
        ('"' :: cs ++ ['"']).getLast?.getD '"' ≠ '"') := by
      rw [List.getLast?_concat]
      simp
    have hcs : '"' :: cs ++ ['"'] ≠ ['"', '"'] := by simpa using hne
    simp only [Kind.datum?, Literal.string, String.toList_ofList, if_neg hcs, if_neg hclosed, hprint]
    simp [Except.toOption]

/-- What the lexer makes of a literal has bytes only if a source text writes them so. -/
theorem Kind.Lexed.writes {kind : Kind} {bs : List UInt8} (hk : kind.Lexed)
    (h : kind.datum? = some bs) : Literal.Writes kind bs := by
  cases kind with
  | character raw =>
    simp only [Kind.datum?, Literal.character] at h
    split at h
    · next b close hc =>
      split at hc
      · next q c close' hraw =>
        split at hc
        · next hprint =>
          cases hc
          simp only [Option.ite_none_right_eq_some, Option.some.injEq] at h
          obtain ⟨rfl, rfl⟩ := h
          have hq : q = '\'' := by simpa [Kind.Lexed, hraw] using hk
          subst hq
          rw [← String.ofList_toList (s := raw), hraw]
          exact .character hprint
        · simp at hc
      · simp at hc
    · simp at h
  | string raw =>
    simp only [Kind.datum?, Literal.string] at h
    obtain ⟨tail, htail⟩ := List.head?_eq_some_iff.mp hk
    split at h
    · simp [Except.toOption] at h
    next hne =>
    split at h
    · simp [Except.toOption] at h
    next hclosed =>
    split at h
    · simp [Except.toOption] at h
    next hprint =>
    simp only [Except.toOption, Option.some.injEq] at h
    subst h
    rw [not_or, Nat.not_lt, Decidable.not_not, htail] at hclosed
    obtain ⟨body, last, rfl⟩ : ∃ body last, tail = body ++ [last] := by
      rcases List.eq_nil_or_concat tail with rfl | ⟨body, last, rfl⟩
      · simp at hclosed
      · exact ⟨body, last, by simp⟩
    have hlast : last = '"' := by
      have h := hclosed.2
      rwa [← List.cons_append, List.getLast?_concat] at h
    subst hlast
    rw [htail] at hne hprint ⊢
    rw [← String.ofList_toList (s := raw), htail]
    have hbody : ((('"' :: (body ++ ['"'])).drop 1).dropLast.map Literal.byte) =
        body.map Literal.byte := by simp
    rw [hbody]
    refine .string (by rintro rfl; exact hne rfl) fun c hc => ?_
    simpa using List.find?_eq_none.mp hprint c (by simp [hc])
  | word w =>
    simp only [Kind.datum?, Option.map_eq_some_iff] at h
    obtain ⟨b, hb, rfl⟩ := h
    exact .number hb
  | _ => simp [Kind.datum?, Kind.hex?] at h

namespace Lexer

/-- The tokens of consecutive lines, line by line and without the newlines, the first line with the
given number. -/
def linesFrom (n : Nat) (lines : List (List Char)) : List (List Token) :=
  (lines.zipIdx n).map fun p => lineTokens p.2 1 p.1

@[simp] theorem linesFrom_cons (n : Nat) (cs : List Char) (lines : List (List Char)) :
    linesFrom n (cs :: lines) = lineTokens n 1 cs :: linesFrom (n + 1) lines := by
  simp [linesFrom]

/-- The tokens of every line of a source text. -/
def sourceTokens (source : String) : List (List Token) :=
  linesFrom 1 (sourceLines source)

end Lexer

/-! ### Lines of the grammar -/

/-- A label, or nothing. -/
inductive LabelPart : List Token → List Item → Prop
  | none : LabelPart [] []
  | label {tok : Token} {name : String} (h : tok.kind = .label name) :
    LabelPart [tok] [.label name tok.line]

/-- A statement other than `END`, or nothing. -/
inductive StatementPart (t : Table) : List Token → List Item → Prop
  | none : StatementPart t [] []
  | origin {w tok : Token} {address : UInt8} (hw : w.kind = .word "ORG")
    (h : tok.kind.hex? = some address) : StatementPart t [w, tok] [.origin address]
  | data {w tok : Token} {bs : List UInt8} (hw : w.kind = .word "DB")
    (h : Literal.Writes tok.kind bs) :
    StatementPart t [w, tok] [.data (bs.map fun b => ⟨.byte b, tok.line⟩)]
  | instruction {w : Token} {m : String} {g : Group} {s : Shape} {opcode : UInt8}
    {toks : List Token} (hw : w.kind = .word m) (hm : ¬IsDirective m) (hg : t.group? m = some g)
    (hs : s ∈ g.shapes) (ho : t.opcodeFor? m g s = some opcode)
    (hc : Class.Match s.classes toks) :
    StatementPart t (w :: toks)
      [.instruction m s ⟨.byte opcode, w.line⟩ (Class.emissions s.classes toks)]

/-- A comment, or nothing. -/
inductive CommentPart : List Token → Prop
  | none : CommentPart []
  | comment {tok : Token} {body : String} (h : tok.kind = .comment body) : CommentPart [tok]

/-- A line before the last: a label, a statement and a comment, each of them optional. -/
inductive Reads (t : Table) : List Token → List Item → Prop
  | line {xs ys zs : List Token} {is js : List Item} (hl : LabelPart xs is)
    (hs : StatementPart t ys js) (hc : CommentPart zs) : Reads t (xs ++ (ys ++ zs)) (is ++ js)

/-- The last line: an optional label, then `END`, then anything. -/
inductive Ends : List Token → List Item → Token → Prop
  | line {xs rest : List Token} {is : List Item} {last : Token} (hl : LabelPart xs is)
    (h : last.kind = .word endMnemonic) : Ends (xs ++ last :: rest) is last

/-- The lines of a program, each with the items that it says: those up to the first that ends the
program, and then anything. -/
inductive Program (t : Table) : List (List Token) → List (List Item) → List Item → Token → Prop
  | final {ts : List Token} {after : List (List Token)} {label : List Item} {last : Token}
    (h : Ends ts label last) : Program t (ts :: after) [] label last
  | line {ts : List Token} {is : List Item} {lines : List (List Token)} {body : List (List Item)}
    {label : List Item} {last : Token} (hends : ∀ label last, ¬Ends ts label last)
    (h : Reads t ts is) (hs : Program t lines body label last) :
    Program t (ts :: lines) (is :: body) label last

/-! ### One reading of a line -/

/-- After its label a line that goes on begins with another word than `END`, or with a comment. -/
theorem StatementPart.head {t : Table} {ys zs rest : List Token} {js : List Item} {tok : Token}
    (hs : StatementPart t ys js) (hc : CommentPart zs) (h : ys ++ zs = tok :: rest) :
    tok.kind ≠ .word endMnemonic ∧ ∀ name, tok.kind ≠ .label name := by
  cases hs with
  | none =>
    cases hc with
    | none => cases h
    | comment hbody => obtain ⟨rfl, -⟩ := List.cons.inj h; simp [hbody]
  | origin hw _ => obtain ⟨rfl, -⟩ := List.cons.inj h; simp [hw, endMnemonic]
  | data hw _ => obtain ⟨rfl, -⟩ := List.cons.inj h; simp [hw, endMnemonic]
  | instruction hw hm =>
    obtain ⟨rfl, -⟩ := List.cons.inj h
    rw [hw]
    exact ⟨fun heq => hm (.inr (.inr (Kind.word.inj heq))), by simp⟩

/-- A line that goes on does not end the program. -/
theorem Reads.not_ends {t : Table} {ts : List Token} {is : List Item} (h : Reads t ts is)
    (label : List Item) (last : Token) : ¬Ends ts label last := by
  intro he
  generalize hus : ts = us at he
  obtain ⟨hl, hs, hc⟩ := h
  obtain ⟨hl', hlast⟩ := he
  cases hl with
  | none =>
    cases hl' with
    | none => exact (hs.head hc hus).1 hlast
    | label hname => exact (hs.head hc hus).2 _ hname
  | label hname =>
    cases hl' with
    | none => rw [← (List.cons.inj hus).1, hname] at hlast; cases hlast
    | label => exact (hs.head hc (List.cons.inj hus).2).1 hlast

theorem Literal.Writes.endsStatement_eq_false {kind : Kind} {bs : List UInt8}
    (h : Literal.Writes kind bs) : kind.endsStatement = false := by
  cases h with
  | number h => cases kind <;> simp_all [Kind.hex?, Kind.endsStatement]
  | character => rfl
  | string => rfl

/-- No token of a statement ends it. -/
theorem StatementPart.endsStatement_eq_false {t : Table} {ys : List Token} {js : List Item}
    (h : StatementPart t ys js) : ∀ tok ∈ ys, tok.kind.endsStatement = false := by
  cases h with
  | none => simp
  | origin hw h =>
    intro tok htok
    rcases List.mem_pair.mp htok with rfl | rfl
    · rw [hw]; rfl
    · exact (Literal.Writes.number h).endsStatement_eq_false
  | data hw h =>
    intro tok htok
    rcases List.mem_pair.mp htok with rfl | rfl
    · rw [hw]; rfl
    · exact h.endsStatement_eq_false
  | instruction hw hm hg hs ho hc =>
    intro tok htok
    rcases List.mem_cons.mp htok with rfl | htok
    · rw [hw]; rfl
    · exact hc.endsStatement_eq_false tok htok

/-- The statement of a line is what comes before its comment. -/
theorem StatementPart.eq_filter {t : Table} {ys zs : List Token} {js : List Item}
    (h : StatementPart t ys js) (hc : CommentPart zs) :
    ys = (ys ++ zs).filter fun tok => !tok.kind.endsStatement := by
  have hys : (ys.filter fun tok => !tok.kind.endsStatement) = ys :=
    List.filter_eq_self.mpr fun tok htok => by simp [h.endsStatement_eq_false tok htok]
  have hzs : (zs.filter fun tok => !tok.kind.endsStatement) = [] := by
    cases hc with
    | none => rfl
    | comment h => simp [h, Kind.endsStatement]
  rw [List.filter_append, hys, hzs, List.append_nil]

/-- The tokens of a statement say one item. -/
theorem StatementPart.unique {t : Table} {ys : List Token} {js js' : List Item}
    (h : StatementPart t ys js) (h' : StatementPart t ys js') : js = js' := by
  cases h with
  | none => cases h'; rfl
  | origin hw h =>
    cases h' with
    | origin _ h' => rw [h] at h'; cases h'; rfl
    | data hw' => simp [hw] at hw'
    | instruction hw' hm => rw [hw] at hw'; cases hw'; exact absurd (.inl rfl) hm
  | data hw h =>
    cases h' with
    | origin hw' => simp [hw] at hw'
    | data _ h' => rw [Option.some.inj (h.datum?.symm.trans h'.datum?)]
    | instruction hw' hm => rw [hw] at hw'; cases hw'; exact absurd (.inr (.inl rfl)) hm
  | instruction hw hm hg hs ho hc =>
    cases h' with
    | origin hw' => rw [hw] at hw'; cases hw'; exact absurd (.inl rfl) hm
    | data hw' => rw [hw] at hw'; cases hw'; exact absurd (.inr (.inl rfl)) hm
    | instruction hw' _ hg' hs' ho' hc' =>
      rw [hw] at hw'
      cases hw'
      rw [hg] at hg'
      cases hg'
      cases Group.eq_of_match hs hs' hc hc'
      rw [ho] at ho'
      cases ho'
      rfl

/-- A line before the last says one list of items. -/
theorem Reads.unique {t : Table} {ts : List Token} {is is' : List Item} (h : Reads t ts is)
    (h' : Reads t ts is') : is = is' := by
  generalize hus : ts = us at h'
  obtain ⟨hl, hs, hc⟩ := h
  obtain ⟨hl', hs', hc'⟩ := h'
  have hstatement : ∀ {ys zs ys' zs' : List Token} {js js' : List Item}, StatementPart t ys js →
      CommentPart zs → StatementPart t ys' js' → CommentPart zs' → ys ++ zs = ys' ++ zs' →
      js = js' := by
    intro ys zs ys' zs' js js' hs hc hs' hc' heq
    have hys : ys = ys' := by rw [hs.eq_filter hc, heq, ← hs'.eq_filter hc']
    subst hys
    exact hs.unique hs'
  cases hl with
  | none =>
    cases hl' with
    | none => rw [hstatement hs hc hs' hc' hus]
    | label hname => exact absurd hname ((hs.head hc hus).2 _)
  | label hname =>
    cases hl' with
    | none => exact absurd hname ((hs'.head hc' hus.symm).2 _)
    | label hname' =>
      obtain ⟨rfl, hrest⟩ := List.cons.inj hus
      rw [hname] at hname'
      cases hname'
      rw [hstatement hs hc hs' hc' hrest]

/-- The last line has one label and one `END`. -/
theorem Ends.unique {ts : List Token} {label label' : List Item} {last last' : Token}
    (h : Ends ts label last) (h' : Ends ts label' last') : label = label' ∧ last = last' := by
  generalize hus : ts = us at h'
  obtain ⟨hl, hlast⟩ := h
  obtain ⟨hl', hlast'⟩ := h'
  cases hl with
  | none =>
    cases hl' with
    | none => exact ⟨rfl, (List.cons.inj hus).1⟩
    | label hname => rw [← (List.cons.inj hus).1, hlast] at hname; cases hname
  | label hname =>
    cases hl' with
    | none => rw [(List.cons.inj hus).1, hlast'] at hname; cases hname
    | label hname' =>
      obtain ⟨rfl, hrest⟩ := List.cons.inj hus
      rw [hname] at hname'
      cases hname'
      exact ⟨rfl, (List.cons.inj hrest).1⟩

/-- A source text says one program. -/
theorem Program.unique {t : Table} {lines : List (List Token)} {body : List (List Item)}
    {label : List Item} {last : Token} (h : Program t lines body label last) :
    ∀ {body' : List (List Item)} {label' : List Item} {last' : Token},
      Program t lines body' label' last' → body = body' ∧ label = label' ∧ last = last' := by
  induction h with
  | final h =>
    intro body' label' last' h'
    cases h' with
    | final h' => exact ⟨rfl, h.unique h'⟩
    | line hends' _ _ => exact absurd h (hends' _ _)
  | line hends h _ ih =>
    intro body' label' last' h'
    cases h' with
    | final h' => exact absurd h' (hends _ _)
    | line _ h' hs' =>
      obtain ⟨rfl, rfl, rfl⟩ := ih hs'
      exact ⟨by rw [h.unique h'], rfl, rfl⟩

/-! ### Lines of items -/

/-- What the item notes as its line is line `n`. -/
def Item.OnLine (n : Nat) : Item → Prop
  | .label _ line => line = n
  | .data bytes => ∀ e ∈ bytes, e.line = n
  | .instruction _ _ opcode operands => opcode.line = n ∧ ∀ e ∈ operands, e.line = n
  | .comment | .newline | .origin _ => True

theorem Lexer.Line.line_eq {n : Nat} {ts : List Token} (h : Lexer.Line n ts) :
    ∀ tok ∈ ts, tok.line = n := by
  induction h with
  | nil => simp
  | comment => simp
  | cons _ _ _ ih => simpa using ih

/-- A byte for an operand has the line of its token. -/
theorem Class.line_of_mem_emissions {ks : List Class} {toks : List Token} {e : Emission}
    (h : e ∈ Class.emissions ks toks) : ∃ tok ∈ toks, e.line = tok.line := by
  obtain ⟨⟨k, tok⟩, hmem, he⟩ := List.mem_filterMap.mp h
  exact ⟨tok, (List.of_mem_zip hmem).2, Class.line_of_emission? he⟩

theorem LabelPart.onLine {n : Nat} {xs : List Token} {is : List Item} (h : LabelPart xs is)
    (hl : ∀ tok ∈ xs, tok.line = n) : ∀ i ∈ is, i.OnLine n := by
  cases h with
  | none => simp
  | label => simpa [Item.OnLine] using hl

theorem StatementPart.onLine {t : Table} {n : Nat} {ys : List Token} {js : List Item}
    (h : StatementPart t ys js) (hl : ∀ tok ∈ ys, tok.line = n) : ∀ i ∈ js, i.OnLine n := by
  cases h with
  | none => simp
  | origin => simp [Item.OnLine]
  | data => simp [Item.OnLine, hl]
  | instruction =>
    simp only [List.mem_singleton, forall_eq, Item.OnLine]
    refine ⟨hl _ (by simp), fun e he => ?_⟩
    obtain ⟨tok, htok, heq⟩ := Class.line_of_mem_emissions he
    rw [heq, hl tok (by simp [htok])]

/-- The items of a line are on that line. -/
theorem Reads.onLine {t : Table} {n : Nat} {ts : List Token} {is : List Item} (h : Reads t ts is)
    (hl : ∀ tok ∈ ts, tok.line = n) : ∀ i ∈ is, i.OnLine n := by
  obtain ⟨hlabel, hs, -⟩ := h
  intro i hi
  rcases List.mem_append.mp hi with hi | hi
  · exact hlabel.onLine (fun tok htok => hl tok (by simp [htok])) i hi
  · exact hs.onLine (fun tok htok => hl tok (by simp [htok])) i hi

/-- The label of the last line and its `END` are on that line. -/
theorem Ends.onLine {n : Nat} {ts : List Token} {is : List Item} {last : Token}
    (h : Ends ts is last) (hl : ∀ tok ∈ ts, tok.line = n) :
    (∀ i ∈ is, i.OnLine n) ∧ last.line = n := by
  obtain ⟨hlabel, -⟩ := h
  exact ⟨hlabel.onLine fun tok htok => hl tok (by simp [htok]), hl last (by simp)⟩

/-- In a program each line has the items that are noted with its number. -/
theorem Program.onLine {t : Table} {label : List Item} {last : Token} {lines : List (List Char)} :
    ∀ {n : Nat} {body : List (List Item)},
      Program t (Lexer.linesFrom n lines) body label last →
      (∀ (k : Nat) (is : List Item), body[k]? = some is → ∀ i ∈ is, i.OnLine (n + k)) ∧
        (∀ i ∈ label, i.OnLine (n + body.length)) ∧ last.line = n + body.length := by
  induction lines with
  | nil => intro n body h; cases h
  | cons cs lines ih =>
    intro n body h
    rw [Lexer.linesFrom_cons] at h
    have hline := (Lexer.line_lineTokens n 1 cs).line_eq
    cases h with
    | final h => exact ⟨by simp, h.onLine hline⟩
    | line _ h hs =>
      obtain ⟨hbody, hlabel, hlast⟩ := ih hs
      have hshift : ∀ k, n + (k + 1) = n + 1 + k := by omega
      refine ⟨?_, ?_, ?_⟩
      · rintro (_ | k) is his i hi
        · cases his
          exact h.onLine hline i hi
        · rw [hshift]
          exact hbody k is his i hi
      · rwa [List.length_cons, hshift]
      · rwa [List.length_cons, hshift]

end Asm8
