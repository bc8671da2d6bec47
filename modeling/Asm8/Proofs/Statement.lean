import Asm8.Encoder.Step
import Asm8.Proofs.Matching

/-!
Items: what a program consists of, apart from its layout.

An item is a label, a statement, a comment or the end of a line, together with the bytes that it
asks for. `Item.Spells` says which tokens write an item, `Spell` which tokens write several of them,
and `Mark` in which order items may stand on a line:

    label?  ( ORG number | DB literal | mnemonic operands )?  comment?  newline

The end of a line may be left out after a comment, where only tokens put together by hand can go on.
-/

namespace Asm8

/-- What a byte of the image stands for: itself, or a label that a jump names. -/
inductive Value where
  | byte (b : UInt8)
  | symbol (name : String) (mode : Mode)
  deriving DecidableEq, Repr

/-- A byte that a statement asks for, with the line of the token that asks for it. -/
structure Emission where
  value : Value
  line : Nat
  deriving DecidableEq, Repr

/-- A label, a statement, a comment or the end of a line. -/
inductive Item where
  | comment
  | newline
  | label (name : String) (line : Nat)
  | origin (address : UInt8)
  | data (bytes : List Emission)
  | instruction (mnemonic : String) (shape : Shape) (opcode : Emission) (operands : List Emission)
  deriving DecidableEq, Repr

/-! ### Bytes of tokens -/

/-- The byte that an operand token asks for; brackets and commas ask for none. -/
def Class.emission? (k : Class) (tok : Token) : Option Emission :=
  match k with
  | .hex => tok.kind.hex?.map fun b => ⟨.byte b, tok.line⟩
  | .register => tok.kind.register?.map fun r => ⟨.byte r.code, tok.line⟩
  | .offset => some ⟨.symbol tok.kind.spelling .relative, tok.line⟩
  | .absolute => some ⟨.symbol tok.kind.spelling .absolute, tok.line⟩
  | .openBracket | .closeBracket | .comma => none

/-- The byte has the line of its token. -/
theorem Class.line_of_emission? {k : Class} {tok : Token} {e : Emission}
    (h : k.emission? tok = some e) : e.line = tok.line := by
  cases k <;> simp only [Class.emission?, Option.map_eq_some_iff, Option.some.injEq] at h
  · obtain ⟨b, -, rfl⟩ := h; rfl
  · obtain ⟨r, -, rfl⟩ := h; rfl
  · cases h
  · cases h
  · cases h
  · rw [← h]
  · rw [← h]

/-- The bytes that operand tokens ask for, from left to right. -/
def Class.emissions (ks : List Class) (toks : List Token) : List Emission :=
  (ks.zip toks).filterMap fun p => p.1.emission? p.2

theorem Class.emissions_cons (k : Class) (ks : List Class) (tok : Token) (toks : List Token) :
    Class.emissions (k :: ks) (tok :: toks) =
      (k.emission? tok).toList ++ Class.emissions ks toks := by
  simp only [Class.emissions, List.zip_cons_cons, List.filterMap_cons]
  cases k.emission? tok <;> rfl

/-- The bytes of a literal as `DB` takes it. -/
def Kind.datum? : Kind → Option (List UInt8)
  | .character raw =>
    match Literal.character raw with
    | .ok (b, close) => if close = '\'' then some [b] else none
    | .error _ => none
  | .string raw => (Literal.string raw).toOption
  | kind => kind.hex?.map fun b => [b]

/-- The opcode of a mnemonic with a shape of its group: that of the shape if there are several, and
that of the mnemonic's first row otherwise. -/
def Table.opcodeFor? (t : Table) (m : String) (g : Group) (s : Shape) : Option UInt8 :=
  if g.hasVariants then t.opcode? m s else t.placeholder? m

/-- The byte that `END` asks for. -/
def Table.ending (t : Table) (line : Nat) : Emission :=
  ⟨.byte ((t.placeholder? endMnemonic).getD 0x00), line⟩

/-- The words that are no mnemonics, whatever the table lists. -/
def IsDirective (w : String) : Prop :=
  w = "ORG" ∨ w = "DB" ∨ w = endMnemonic

/-! ### Tokens of items -/

/-- The tokens that write an item. -/
inductive Item.Spells (t : Table) : Item → List Token → Prop
  | comment {tok : Token} {body : String} (h : tok.kind = .comment body) : Spells t .comment [tok]
  | newline {tok : Token} (h : tok.kind = .newline) : Spells t .newline [tok]
  | label {tok : Token} {name : String} (h : tok.kind = .label name) :
    Spells t (.label name tok.line) [tok]
  | origin {w tok : Token} {address : UInt8} (hw : w.kind = .word "ORG")
    (h : tok.kind.hex? = some address) : Spells t (.origin address) [w, tok]
  | data {w tok : Token} {bs : List UInt8} (hw : w.kind = .word "DB")
    (h : tok.kind.datum? = some bs) :
    Spells t (.data (bs.map fun b => ⟨.byte b, tok.line⟩)) [w, tok]
  | instruction {w : Token} {m : String} {g : Group} {s : Shape} {opcode : UInt8}
    {toks : List Token} (hw : w.kind = .word m) (hm : ¬IsDirective m) (hg : t.group? m = some g)
    (hs : s ∈ g.shapes) (ho : t.opcodeFor? m g s = some opcode)
    (hc : Class.Match s.classes toks) :
    Spells t (.instruction m s ⟨.byte opcode, w.line⟩ (Class.emissions s.classes toks)) (w :: toks)

/-- The tokens that write some items, one after the other. -/
inductive Spell (t : Table) : List Item → List Token → Prop
  | nil : Spell t [] []
  | cons {i : Item} {is : List Item} {xs ys : List Token} (h : i.Spells t xs) (hs : Spell t is ys) :
    Spell t (i :: is) (xs ++ ys)

/-! ### The order of items -/

/-- What stands on the line so far: a label, an instruction, a statement not yet closed. -/
structure Mark where
  labelled : Bool
  opened : Bool
  pending : Bool
  deriving DecidableEq, Repr

/-- The start of a line. -/
def Mark.fresh : Mark := ⟨false, false, false⟩

/-- The mark after one more item, if the item may stand there. -/
def Mark.next? (k : Mark) : Item → Option Mark
  | .comment => some { k with pending := false }
  | .newline => some fresh
  | .label _ _ => if k.pending ∨ k.labelled then none else some { k with labelled := true }
  | .origin _ | .data _ => if k.pending then none else some { k with pending := true }
  | .instruction _ _ _ _ =>
    if k.pending ∨ k.opened then none else some { k with opened := true, pending := true }

/-- The mark after several items. -/
def Mark.after? (k : Mark) (is : List Item) : Option Mark :=
  is.foldlM next? k

@[simp] theorem Mark.after?_nil (k : Mark) : k.after? [] = some k := rfl

@[simp] theorem Mark.after?_cons (k : Mark) (i : Item) (is : List Item) :
    k.after? (i :: is) = (k.next? i).bind (·.after? is) := rfl

/-- A reading of a list of tokens: items in an allowed order, then `END`, then anything. -/
structure Reading (t : Table) (toks : List Token) (is : List Item) (last : Token) : Prop where
  tokens : ∃ xs rest, toks = xs ++ last :: rest ∧ Spell t is xs
  order : ∃ k, Mark.fresh.after? is = some k ∧ k.pending = false
  ends : last.kind = .word endMnemonic

end Asm8
