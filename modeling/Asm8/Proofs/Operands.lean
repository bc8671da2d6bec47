import Asm8.Proofs.Readings
import Asm8.Proofs.Remainder

/-!
Operands are read without going back, and every shape is found that trying all of them would find.

From a mnemonic on the encoder takes tokens until a shape of its group is complete (`operands`).
With every token it settles for one class. It finds a shape exactly when the classes of the shape
accept the next tokens one by one, and otherwise it stops at the first token where no shape is left:

    MOV [ BL ] , [ 10 ]
        [ BL ] ,             accepted one by one by the classes of [REG],REG
        [ BL ] , [           by those of no shape: a register is expected for the second [

On the way it writes the bytes that the tokens ask for, in order, and stops earlier only if one of
them cannot be written or a symbol has a name that is not allowed.
-/

namespace Asm8

/-! ### Tokens and the shapes of a group -/

namespace Group

/-- The tokens are operands of a shape of the group: its classes accept them one by one. -/
structure Accepts (g : Group) (shape : Shape) (xs : List Token) : Prop where
  mem : shape ∈ g.shapes
  accepts : Class.Match shape.classes xs

/-- A shape of the group begins with these classes, and they accept the tokens one by one. -/
structure Begins (g : Group) (ks : List Class) (xs : List Token) : Prop where
  shape : ∃ shape ∈ g.shapes, ks <+: shape.classes
  accepts : Class.Match ks xs

/-- A shape of the group goes on with the class after classes that accept the tokens one by one. -/
def CanFollow (g : Group) (xs : List Token) (k : Class) : Prop :=
  ∃ ks, Class.Match ks xs ∧ ∃ shape ∈ g.shapes, ks ++ [k] <+: shape.classes

variable {g : Group} {ks ks' : List Class} {k : Class} {xs ys rest rest' : List Token}
  {shape shape' : Shape} {tok : Token}

theorem begins_nil (g : Group) : g.Begins [] [] := by
  refine ⟨?_, .nil⟩
  cases g <;> exact ⟨_, List.mem_cons_self, List.nil_prefix⟩

theorem Begins.unique (h : g.Begins ks xs) (h' : g.Begins ks' xs) : ks = ks' := by
  obtain ⟨⟨shape, hs, hks⟩, hm⟩ := h
  obtain ⟨⟨shape', hs', hks'⟩, hm'⟩ := h'
  exact eq_of_match_prefix hs hs' hks hks' hm hm'

/-- The classes that can follow are the expected ones. -/
theorem Begins.canFollow_iff (h : g.Begins ks xs) :
    g.CanFollow xs k ↔ k ∈ (Candidates.after g ks).expected := by
  rw [Candidates.mem_expected_after]
  constructor
  · rintro ⟨ks', hm, shape, hs, hk⟩
    have heq := h.unique ⟨⟨shape, hs, (List.prefix_append _ _).trans hk⟩, hm⟩
    exact ⟨shape, hs, heq ▸ hk⟩
  · rintro ⟨shape, hs, hk⟩
    exact ⟨ks, h.accepts, shape, hs, hk⟩

/-- One token more is accepted by an expected class. -/
theorem Begins.concat (h : g.Begins ks xs) (hk : k ∈ (Candidates.after g ks).expected)
    (ha : k.accepts tok.kind) : g.Begins (ks ++ [k]) (xs ++ [tok]) :=
  ⟨Candidates.mem_expected_after.mp hk, List.rel_append h.accepts (.cons ha .nil)⟩

/-- Where no expected class accepts the next token, no shape begins with classes that do. -/
theorem Begins.not_concat (h : g.Begins ks xs)
    (hnone : ∀ k ∈ (Candidates.after g ks).expected, k.accepts tok.kind = false) :
    ¬g.Begins ks' (xs ++ [tok]) := by
  rintro ⟨⟨shape, hs, hks'⟩, hm⟩
  have hlen : ks'.length = xs.length + 1 := by simpa using hm.length_eq
  rcases List.eq_nil_or_concat' ks' with rfl | ⟨init, k, rfl⟩
  · cases hlen
  have htake : Class.Match ((init ++ [k]).take xs.length) xs := List.forall₂_take_append _ _ _ hm
  have hdrop : Class.Match ((init ++ [k]).drop xs.length) [tok] := List.forall₂_drop_append _ _ _ hm
  have hinit : init.length = xs.length := by simpa using hlen
  rw [List.take_left' hinit] at htake
  rw [List.drop_left' hinit] at hdrop
  cases hdrop with
  | cons ha _ =>
    have hk : k ∈ (Candidates.after g ks).expected :=
      h.canFollow_iff.mp ⟨init, htake, shape, hs, hks'⟩
    rw [hnone k hk] at ha
    cases ha

/-- Of all shapes one at most accepts a beginning of the tokens, and one beginning only. -/
theorem Accepts.unique (h : g.Accepts shape xs) (h' : g.Accepts shape' ys)
    (heq : xs ++ rest = ys ++ rest') : shape' = shape ∧ ys = xs := by
  rcases List.append_eq_append_iff.mp heq with ⟨zs, rfl, -⟩ | ⟨zs, rfl, -⟩
  · obtain ⟨rfl, rfl⟩ := eq_of_match_append h.mem h'.mem h.accepts h'.accepts
    exact ⟨rfl, by simp⟩
  · obtain ⟨rfl, rfl⟩ := eq_of_match_append h'.mem h.mem h'.accepts h.accepts
    exact ⟨rfl, by simp⟩

/-- No shape is complete after the classes, and no expected class accepts the next token. -/
structure Stuck (g : Group) (ks : List Class) (rest : List Token) : Prop where
  incomplete : (Candidates.after g ks).complete? = none
  refused : ∀ tok ∈ rest.head?, ∀ k ∈ (Candidates.after g ks).expected, k.accepts tok.kind = false

/-- Taking token by token, one comes to a complete shape or to a token that is not accepted. -/
theorem Begins.exists_accepts_or_stuck : ∀ (toks : List Token) {ks : List Class} {xs : List Token},
    g.Begins ks xs → ∃ ys rest, toks = ys ++ rest ∧
      ((∃ shape, g.Accepts shape (xs ++ ys)) ∨ ∃ ks', g.Begins ks' (xs ++ ys) ∧ g.Stuck ks' rest)
  | toks, ks, xs, h => by
    cases hc : (Candidates.after g ks).complete? with
    | some shape =>
      obtain ⟨hs, rfl⟩ := Candidates.complete?_after.mp hc
      exact ⟨[], toks, rfl, .inl ⟨shape, hs, by simpa using h.accepts⟩⟩
    | none =>
      match toks with
      | [] => exact ⟨[], [], rfl, .inr ⟨ks, by simpa using h, hc, by simp⟩⟩
      | tok :: toks =>
        by_cases hnone : ∀ k ∈ (Candidates.after g ks).expected, k.accepts tok.kind = false
        · exact ⟨[], tok :: toks, rfl, .inr ⟨ks, by simpa using h, hc, by simpa using hnone⟩⟩
        · simp only [not_forall, Bool.not_eq_false] at hnone
          obtain ⟨k, hk, ha⟩ := hnone
          obtain ⟨ys, rest, rfl, hend⟩ := (h.concat hk ha).exists_accepts_or_stuck toks
          refine ⟨tok :: ys, rest, rfl, ?_⟩
          simpa only [List.append_assoc, List.singleton_append] using hend

end Group

/-! ### Writing the bytes of operands -/

namespace Encoder

variable {t : Table} {s : Encoder}

/-- The state on another line, with something else expected next. -/
def resume (s : Encoder) (line : Nat) (e : Expectation) : Encoder :=
  { s with line, expects := e }

/-- Write the bytes that a statement asks for, each on its line. -/
def emitAll (s : Encoder) (es : List Emission) : Except Diagnostic Encoder :=
  es.foldlM (fun s e => emit { s with line := e.line } e) s

@[simp] theorem emitAll_nil (s : Encoder) : s.emitAll [] = .ok s := rfl

theorem emitAll_cons (s : Encoder) (e : Emission) (es : List Emission) :
    s.emitAll (e :: es) = emit { s with line := e.line } e >>= fun s' => s'.emitAll es := rfl

/-- What is expected does not matter to a byte. -/
theorem emit_resume (s : Encoder) (e : Emission) (x : Expectation) :
    emit (s.resume e.line x) e =
      (emit { s with line := e.line } e).map fun s' => s'.resume s'.line x := by
  obtain ⟨value, line⟩ := e
  cases value with
  | byte b =>
    simp only [emit, write, resume]
    cases s.image.write b <;> rfl
  | symbol name mode =>
    simp only [emit, symbol, write, resume]
    split
    · rfl
    split
    · rfl
    · cases s.image.write (UInt8.ofNat s.image.cursor) <;> rfl

theorem line_of_emit {s' : Encoder} {e : Emission} (h : s.emit e = .ok s') : s'.line = s.line := by
  obtain ⟨value, line⟩ := e
  cases value with
  | byte b =>
    obtain ⟨image, -, rfl⟩ := write_eq_ok.mp h
    rfl
  | symbol name mode =>
    simp only [emit, symbol] at h
    split at h
    · cases h
    split at h
    · cases h
    · obtain ⟨s₁, hwrite, hok⟩ := bind_ok_iff.mp h
      obtain ⟨image, -, rfl⟩ := write_eq_ok.mp hwrite
      cases hok
      rfl

/-- Neither the line nor what is expected matters to bytes after which both are set anew. -/
theorem emitAll_resume {α : Type} {line' : Nat} {x' : Expectation}
    (f : Encoder → Except Diagnostic α) : ∀ (es : List Emission) (s : Encoder) (line : Nat)
      (x : Expectation), ((s.resume line x).emitAll es >>= fun s' => f (s'.resume line' x')) =
        s.emitAll es >>= fun s' => f (s'.resume line' x')
  | [], _, _, _ => rfl
  | e :: es, s, line, x => by
    have hemit := emit_resume s e x
    rw [emitAll_cons, emitAll_cons]
    change (emit (s.resume e.line x) e >>= _) >>= _ = _
    rw [hemit]
    cases emit { s with line := e.line } e with
    | error d => rfl
    | ok s₁ => exact emitAll_resume f es s₁ s₁.line x

/-- The byte of an operand token is written as its class asks for it. -/
theorem operandByte_eq (s : Encoder) (k : Class) (tok : Token) :
    operandByte s k tok.kind = ((k.emission? tok).map s.emit).getD (.ok s) := by
  cases k with
  | hex =>
    simp only [operandByte, Class.emission?]
    cases tok.kind.hex? <;> rfl
  | register =>
    simp only [operandByte, Class.emission?]
    cases tok.kind.register? <;> rfl
  | _ => rfl

/-! ### Reading operands -/

/-- Take tokens as long as operands are expected. Where the tokens run out, the line ends there. The
state comes with the tokens that are left. -/
def operands (t : Table) (s : Encoder) : List Token → Except Diagnostic (Encoder × List Token)
  | [] =>
    match s.expects with
    | .operand _ _ => do
      let s' ← step t s ⟨.newline, s.line, 0⟩
      .ok (s', [])
    | _ => .ok (s, [])
  | tok :: toks =>
    match s.expects with
    | .operand _ _ => do
      let s' ← step t s tok
      operands t s' toks
    | _ => .ok (s, tok :: toks)

theorem operands_of_close {p : Option (Instruction × Shape)} (he : s.expects = .close p)
    (toks : List Token) : operands t s toks = .ok (s, toks) := by
  cases toks <;> simp only [operands, he]

theorem operands_cons {i : Instruction} {live : Candidates} (he : s.expects = .operand i live)
    (tok : Token) (toks : List Token) :
    operands t s (tok :: toks) = step t s tok >>= fun s' => operands t s' toks := by
  simp only [operands, he]

/-- A token that is not accepted is a fault, and so is the end of the tokens. -/
theorem operands_of_refused {i : Instruction} {live : Candidates} {toks : List Token}
    (he : s.expects = .operand i live)
    (h : ∀ tok ∈ toks.head?, ∀ k ∈ live.expected, k.accepts tok.kind = false) :
    operands t s toks =
      .error ((toks.headD ⟨.newline, s.line, 0⟩).unexpected (Class.describe live.expected)) := by
  cases toks with
  | nil =>
    simp only [operands, he]
    rw [step_operand he, operand_of_endsStatement rfl]
    rfl
  | cons tok toks =>
    have hnone : live.expected.find? (·.accepts tok.kind) = none := by
      rw [List.find?_eq_none]
      intro k hk
      rw [h tok rfl k hk]
      decide
    rw [operands_cons he, step_operand he, operand, hnone]
    rfl

/-- Reading operands is the part of the first pass that comes next. -/
theorem finish_run_eq_operands (t : Table) : ∀ (toks : List Token) (s : Encoder),
    (run t s toks >>= finish t) =
      operands t s toks >>= fun p => run t p.1 p.2 >>= finish t
  | [], s => by
    cases he : s.expects with
    | operand i live =>
      rw [operands_of_refused he (by simp)]
      change finish t s = _
      simp only [finish, he]
      rw [step_operand he, operand_of_endsStatement rfl]
      rfl
    | _ =>
      simp only [operands, he]
      rfl
  | tok :: toks, s => by
    cases he : s.expects with
    | operand i live =>
      rw [operands_cons he, run_cons]
      cases step t s tok with
      | error d => rfl
      | ok s' => exact finish_run_eq_operands t toks s'
    | _ =>
      simp only [operands, he]
      rfl

/-- The line after some tokens. -/
def lineAfter (line : Nat) (xs : List Token) : Nat :=
  (xs.map Token.line).getLastD line

theorem lineAfter_cons (line : Nat) (tok : Token) (xs : List Token) :
    lineAfter line (tok :: xs) = lineAfter tok.line xs := by
  rw [lineAfter, List.map_cons, List.getLastD_cons]
  rfl

/-- Tokens that the next classes of a shape accept are taken, and their bytes written. -/
theorem operands_append {g : Group} {i : Instruction} {shape : Shape} (hs : shape ∈ g.shapes)
    {ks : List Class} {xs : List Token} (hm : Class.Match ks xs) (rest : List Token) :
    ∀ {pre : List Class} {s : Encoder}, pre ++ ks <+: shape.classes →
      s.expects = operandsOf i (.after g pre) →
      operands t s (xs ++ rest) = s.emitAll (Class.emissions ks xs) >>= fun s' =>
        operands t (s'.resume (lineAfter s.line xs) (operandsOf i (.after g (pre ++ ks))))
          rest := by
  induction hm with
  | nil =>
    intro pre s _ he
    rw [List.append_nil, ← he]
    rfl
  | @cons k tok ks xs hk _ ih =>
    intro pre s hpre he
    have hks : pre ++ k :: ks = pre ++ [k] ++ ks := by simp
    rw [hks] at hpre ⊢
    obtain ⟨hexp, hstep⟩ := step_operandsOf (t := t) hs ((List.prefix_append _ _).trans hpre) hk he
    rw [List.cons_append, operands_cons hexp, hstep, operandByte_eq, Class.emissions_cons,
      lineAfter_cons]
    cases hemission : k.emission? tok with
    | none =>
      refine (ih hpre rfl).trans ?_
      exact emitAll_resume (fun s' => operands t s' rest) _ s tok.line _
    | some e =>
      rw [← Class.line_of_emission? hemission]
      change ((emit { s with line := e.line } e >>= _) >>= _) =
        (emit { s with line := e.line } e >>= _) >>= _
      cases hemit : emit { s with line := e.line } e with
      | error d => rfl
      | ok s₁ =>
        have hline : s₁.line = e.line := line_of_emit hemit
        rw [← hline]
        refine (ih hpre rfl).trans ?_
        exact emitAll_resume (fun s' => operands t s' rest) _ s₁ s₁.line _

/-! ### All shapes of a group -/

/-- Behind its mnemonic the operands of an instruction are expected. -/
def opens (s : Encoder) (i : Instruction) : Encoder :=
  s.await (operandsOf i (.ofGroup i.group))

variable {i : Instruction} {shape : Shape} {ks : List Class} {xs rest : List Token}

/-- As long as a shape is left, the tokens are taken and their bytes written. -/
theorem operands_opens (h : i.group.Begins ks xs) (rest : List Token) :
    operands t (s.opens i) (xs ++ rest) = s.emitAll (Class.emissions ks xs) >>= fun s' =>
      operands t (s'.resume (lineAfter s.line xs) (operandsOf i (.after i.group ks))) rest := by
  obtain ⟨⟨shape, hs, hks⟩, hm⟩ := h
  refine (@operands_append t i.group i shape hs ks xs hm rest [] (s.opens i) hks rfl).trans ?_
  exact emitAll_resume (fun s' => operands t s' rest) _ s s.line _

/-- The tokens of a shape complete it. -/
theorem operands_of_accepts (h : i.group.Accepts shape xs) (rest : List Token) :
    operands t (s.opens i) (xs ++ rest) =
      s.emitAll (Class.emissions shape.classes xs) >>= fun s' =>
        .ok (s'.resume (lineAfter s.line xs) (.close (some (i, shape))), rest) := by
  have hcomplete : (Candidates.after i.group shape.classes).complete? = some shape :=
    Candidates.complete?_after.mpr ⟨h.mem, rfl⟩
  rw [operands_opens ⟨⟨shape, h.mem, List.prefix_rfl⟩, h.accepts⟩, operandsOf, hcomplete]
  exact bind_congr fun s' => operands_of_close rfl rest

/-- Where no shape is left, the next token is a fault. -/
theorem operands_of_stuck (h : i.group.Begins ks xs) (hstuck : i.group.Stuck ks rest) :
    operands t (s.opens i) (xs ++ rest) =
      s.emitAll (Class.emissions ks xs) >>= fun _ =>
        .error ((rest.headD ⟨.newline, lineAfter s.line xs, 0⟩).unexpected
          (Class.describe (Candidates.after i.group ks).expected)) := by
  rw [operands_opens h, operandsOf, hstuck.incomplete]
  exact bind_congr fun s' => operands_of_refused rfl hstuck.refused

/-- What is read as a shape begins with tokens that the classes of the shape accept. -/
theorem exists_accepts_of_operands {toks : List Token} {s' : Encoder}
    (h : operands t (s.opens i) toks = .ok (s', rest)) :
    ∃ shape xs s₁, toks = xs ++ rest ∧ i.group.Accepts shape xs ∧
      s.emitAll (Class.emissions shape.classes xs) = .ok s₁ ∧
      s' = s₁.resume (lineAfter s.line xs) (.close (some (i, shape))) := by
  obtain ⟨xs, rest', rfl, ⟨shape, hacc⟩ | ⟨ks, hbegins, hstuck⟩⟩ :=
    (i.group.begins_nil).exists_accepts_or_stuck toks
  · rw [List.nil_append] at hacc
    rw [operands_of_accepts hacc] at h
    obtain ⟨s₁, hemit, hok⟩ := bind_ok_iff.mp h
    cases hok
    exact ⟨shape, xs, s₁, rfl, hacc, hemit, rfl⟩
  · rw [List.nil_append] at hbegins
    rw [operands_of_stuck hbegins hstuck] at h
    obtain ⟨s₁, -, hok⟩ := bind_ok_iff.mp h
    cases hok

end Encoder

open Encoder

/-- Reading the operands of an instruction is a part of the first pass, and gives what trying all
shapes of its group one by one would give. A shape is found exactly when its classes accept the next
tokens one by one and the bytes of these tokens can be written; they are written in order, and no
other shape and no other number of tokens would do. Where no shape is found, the fault is the first
token with which the tokens are no longer accepted as the beginning of a shape, and what is expected
are the classes that can follow the tokens before it, each once and in their order. -/
theorem operands_iff_accepts (t : Table) (s : Encoder) (i : Instruction) (toks : List Token) :
    ((run t (s.opens i) toks >>= finish t) =
      operands t (s.opens i) toks >>= fun p => run t p.1 p.2 >>= finish t) ∧
    (∀ shape rest,
      (∃ s', operands t (s.opens i) toks = .ok (s', rest) ∧
        s'.expects = .close (some (i, shape))) ↔
      ∃ xs s', toks = xs ++ rest ∧ i.group.Accepts shape xs ∧
        s.emitAll (Class.emissions shape.classes xs) = .ok s') ∧
    (∀ shape xs rest, toks = xs ++ rest → i.group.Accepts shape xs →
      (operands t (s.opens i) toks = s.emitAll (Class.emissions shape.classes xs) >>= fun s' =>
        .ok (s'.resume (lineAfter s.line xs) (.close (some (i, shape))), rest)) ∧
      ∀ shape' xs' rest', toks = xs' ++ rest' → i.group.Accepts shape' xs' →
        shape' = shape ∧ xs' = xs) ∧
    ((∀ shape xs rest, toks = xs ++ rest → ¬i.group.Accepts shape xs) →
      ∃ ks xs rest tok expected, toks = xs ++ rest ∧ i.group.Begins ks xs ∧
        tok = rest.headD ⟨.newline, lineAfter s.line xs, 0⟩ ∧
        (∀ ks', ¬i.group.Begins ks' (xs ++ [tok])) ∧
        expected.Sublist Class.all ∧ (∀ k, k ∈ expected ↔ i.group.CanFollow xs k) ∧
        operands t (s.opens i) toks = s.emitAll (Class.emissions ks xs) >>= fun _ =>
          .error (tok.unexpected (Class.describe expected))) := by
  refine ⟨finish_run_eq_operands t toks _, ?_, ?_, ?_⟩
  · intro shape rest
    constructor
    · rintro ⟨s', h, he⟩
      obtain ⟨shape', xs, s₁, htoks, hacc, hemit, rfl⟩ := exists_accepts_of_operands h
      cases he
      exact ⟨xs, s₁, htoks, hacc, hemit⟩
    · rintro ⟨xs, s', rfl, hacc, hemit⟩
      refine ⟨s'.resume (lineAfter s.line xs) (.close (some (i, shape))), ?_, rfl⟩
      rw [operands_of_accepts hacc, hemit]
      rfl
  · rintro shape xs rest rfl hacc
    exact ⟨operands_of_accepts hacc rest, fun _ _ _ heq hacc' => hacc.unique hacc' heq⟩
  · intro hnone
    obtain ⟨xs, rest, rfl, ⟨shape, hacc⟩ | ⟨ks, hbegins, hstuck⟩⟩ :=
      (i.group.begins_nil).exists_accepts_or_stuck toks
    · exact absurd hacc (hnone shape xs rest rfl)
    · rw [List.nil_append] at hbegins
      refine ⟨ks, xs, rest, _, _, rfl, hbegins, rfl, fun ks' => hbegins.not_concat ?_,
        List.filter_sublist, fun k => hbegins.canFollow_iff.symm,
        operands_of_stuck hbegins hstuck⟩
      intro k hk
      cases rest with
      | nil => exact Class.not_accepts_of_endsStatement rfl
      | cons tok rest => exact hstuck.refused tok rfl k hk

/-- Operands of `MOV` that begin with a register in brackets: behind the comma comes a register, and
no bracket. -/
theorem operands_iff_accepts_move :
    (∃ s', operands .jumps (start.opens ⟨"MOV", .move, 0⟩) (tokenize "[BL],AL") =
        .ok (s', [⟨.newline, 1, 8⟩]) ∧
      s'.expects = .close (some (⟨"MOV", .move, 0⟩, .atRegisterRegister)) ∧
      s'.image.ram.take 2 = [0x01, 0x00]) ∧
    (∀ shape xs rest, tokenize "[BL],[10]" = xs ++ rest → ¬Group.move.Accepts shape xs) ∧
    operands .jumps (start.opens ⟨"MOV", .move, 0⟩) (tokenize "[BL],[10]") =
      .error ⟨1, .unexpected "register" (some "[")⟩ ∧
    ∃ ks xs rest tok expected, tokenize "[BL],[10]" = xs ++ rest ∧ Group.move.Begins ks xs ∧
      (∀ ks', ¬Group.move.Begins ks' (xs ++ [tok])) ∧ List.Sublist expected Class.all ∧
      ∀ k, k ∈ expected ↔ Group.move.CanFollow xs k := by
  have hfound : tokenize "[BL],AL" = (tokenize "[BL],AL").take 5 ++ [⟨.newline, 1, 8⟩] := by
    decide +kernel
  have hmatch : Group.move.Accepts .atRegisterRegister ((tokenize "[BL],AL").take 5) := by
    refine ⟨by decide, ?_⟩
    unfold Class.Match
    decide +kernel
  obtain ⟨s', hemit, hram⟩ := exists_ok_of_map_toOption
    (x := start.emitAll (Class.emissions Shape.atRegisterRegister.classes
      ((tokenize "[BL],AL").take 5)))
    (f := fun s => s.image.ram.take 2) (b := [0x01, 0x00]) (by decide +kernel)
  have hnone : ∀ shape xs rest, tokenize "[BL],[10]" = xs ++ rest →
      ¬Group.move.Accepts shape xs := by
    rintro shape xs rest htoks ⟨hs, hm⟩
    have hxs : xs = (tokenize "[BL],[10]").take shape.classes.length := by
      rw [htoks, hm.length_eq, List.take_left]
    have hall : ∀ shape ∈ Group.move.shapes,
        ¬Class.Match shape.classes ((tokenize "[BL],[10]").take shape.classes.length) := by
      unfold Class.Match
      decide +kernel
    exact hall shape hs (hxs ▸ hm)
  obtain ⟨-, -, hok, -⟩ :=
    operands_iff_accepts .jumps start ⟨"MOV", .move, 0⟩ (tokenize "[BL],AL")
  obtain ⟨-, -, -, hfault⟩ :=
    operands_iff_accepts .jumps start ⟨"MOV", .move, 0⟩ (tokenize "[BL],[10]")
  obtain ⟨ks, xs, rest, tok, expected, htoks, hbegins, -, hnot, hsub, hmem, -⟩ := hfault hnone
  have hread := (hok _ _ _ hfound hmatch).1
  rw [hemit] at hread
  exact ⟨⟨_, hread, rfl, hram⟩, hnone, by decide +kernel, ks, xs, rest, tok, expected, htoks,
    hbegins, hnot, hsub, hmem⟩

end Asm8
