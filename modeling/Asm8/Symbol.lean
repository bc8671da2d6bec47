import Asm8.Text.Upper

/-!
Symbols.

Label definitions and the operands that name labels are kept in one list, in source order. Two names
are the same when their upper-case forms, the keys, are equal. Of several definitions with one key
the first counts.
-/

namespace Asm8

/-- What the operand byte of a reference becomes: a distance or an address. -/
inductive Mode where
  | relative
  | absolute
  deriving DecidableEq, Repr

/-- Whether an entry names a place or asks for one. -/
inductive Role where
  | definition
  | reference (mode : Mode)
  deriving DecidableEq, Repr

/-- A named place. For a definition the address is the place itself, for a reference that of the
operand byte. Linking takes addresses as words of 64 bits. -/
structure Symbol where
  name : String
  role : Role
  address : Nat
  line : Nat
  deriving DecidableEq, Repr

namespace Symbol

/-- The name as it is compared. -/
def key (s : Symbol) : String := Text.upper s.name

/-- Whether the entry is a definition. -/
def isDefinition (s : Symbol) : Bool := s.role = .definition

end Symbol

/-- Definitions and references in source order. -/
structure Symbols where
  entries : List Symbol
  deriving DecidableEq, Repr

namespace Symbols

/-- No symbols. -/
def empty : Symbols := ⟨[]⟩

/-- Record a label. -/
def define (ss : Symbols) (name : String) (address line : Nat) : Symbols :=
  ⟨ss.entries ++ [⟨name, .definition, address, line⟩]⟩

/-- Record an operand that names a label. -/
def refer (ss : Symbols) (name : String) (mode : Mode) (address line : Nat) : Symbols :=
  ⟨ss.entries ++ [⟨name, .reference mode, address, line⟩]⟩

@[simp] theorem entries_empty : empty.entries = [] := rfl

@[simp] theorem entries_define (ss : Symbols) (name : String) (address line : Nat) :
    (ss.define name address line).entries =
      ss.entries ++ [⟨name, .definition, address, line⟩] := rfl

@[simp] theorem entries_refer (ss : Symbols) (name : String) (mode : Mode) (address line : Nat) :
    (ss.refer name mode address line).entries =
      ss.entries ++ [⟨name, .reference mode, address, line⟩] := rfl

/-- The definitions in order. -/
def definitions (ss : Symbols) : List Symbol :=
  ss.entries.filter Symbol.isDefinition

/-- The references in order, each with its place among all entries. -/
def references (ss : Symbols) : List (Symbol × Nat) :=
  ss.entries.zipIdx.filter fun e => !e.1.isDefinition

/-- The first definition of a name. -/
def definition? (ss : Symbols) (name : String) : Option Symbol :=
  ss.definitions.find? (·.key = Text.upper name)

/-- Whether some definition has the name. -/
def isDefined (ss : Symbols) (name : String) : Bool :=
  (ss.definition? name).isSome

/-- The address of the first definition of a name. -/
def address? (ss : Symbols) (name : String) : Option Nat :=
  (ss.definition? name).map Symbol.address

end Symbols

end Asm8
