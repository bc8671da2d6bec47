import Asm8.Isa.Group
import Asm8.Operand.Class

/-!
Candidates for the shape of an operand list.

All shapes of a group are followed at once, one token at a time and without going back. A candidate
is a shape with the classes that are still to come; a token's class keeps those candidates that
wait for it.

    REG , [ REG ]        REG,CONST   REG,REG   REG,[ADDR]   REG,[REG]   [REG],REG   [ADDR],REG
        after REG ,          *          *          *            *
        after [                                    *            *
        after REG                                               *
-/

namespace Asm8

/-- A shape that fits the tokens so far, with the classes still to come. -/
structure Candidate where
  shape : Shape
  rest : List Class
  deriving DecidableEq, Repr

/-- The shapes that still fit. -/
abbrev Candidates := List Candidate

namespace Candidates

/-- Before the first operand token every shape of the group is a candidate. -/
def ofGroup (g : Group) : Candidates :=
  g.shapes.map fun s => ⟨s, s.classes⟩

/-- The candidate of which nothing is left to come. -/
def complete? (cs : Candidates) : Option Shape :=
  (cs.find? (·.rest = [])).map Candidate.shape

/-- The classes that some candidate waits for, each once. -/
def expected (cs : Candidates) : List Class :=
  Class.all.filter fun k => cs.any (·.rest.head? = some k)

/-- The candidates that wait for the class, one token further. -/
def advance (cs : Candidates) (k : Class) : Candidates :=
  cs.filterMap fun c =>
    match c.rest with
    | [] => none
    | head :: rest => if head = k then some ⟨c.shape, rest⟩ else none

end Candidates

end Asm8
