import Asm8.Image
import Asm8.Source.Literal

/-!
Diagnostics.

A failed run has exactly one diagnostic: a cause and the line on which it is reported. The wording
of every cause is in one place.
-/

namespace Asm8

/-- What was done with a file when it failed. -/
inductive FileAction where
  | opening
  | reading
  | creating
  | writing
  deriving DecidableEq, Repr

/-- The verb of a file action. -/
def FileAction.verb : FileAction → String
  | opening => "open"
  | reading => "read"
  | creating => "create"
  | writing => "write"

/-- Why a source cannot be assembled, or a file not be used. -/
inductive Cause where
  | unexpected (expected : String) (got : Option String)
  | strayColon
  | strayColonAfterLabel
  | duplicateLabel (key : String)
  | hexLabel (name : String)
  | refusedCharacter (c : Char)
  | secondLabel
  | secondMnemonic
  | missingEnd
  | write (fault : WriteFault)
  | character (fault : CharacterFault)
  | string (fault : StringFault)
  | unresolved (key : String)
  | unreachable (key : String) (displacement : Int)
  | missingVariant (variant : String)
  | file (action : FileAction) (path : String)
  deriving DecidableEq, Repr

/-- The wording of a cause. -/
def Cause.message : Cause → String
  | unexpected expected none => s!"Expected {expected}"
  | unexpected expected (some got) => s!"Expected {expected}, got '{got}'"
  | strayColon => "Expected label, mnemonic, directive or comment, got a ':'"
  | strayColonAfterLabel => "Expected mnemonic, directive or comment, got a ':'"
  | duplicateLabel key => s!"Duplicate (case insensitive) label names not allowed: '{key}'"
  | hexLabel name => s!"Label must not be hexadecimal number, found: {name}"
  | refusedCharacter c => s!"Invalid character in label or symbol, found '{c}'"
  | secondLabel => "Only one label allowed per line"
  | secondMnemonic => "Only one mnemonic allowed per line"
  | missingEnd => "END is missing"
  | write fault => fault.message
  | character fault => fault.message
  | string fault => fault.message
  | unresolved key => s!"Cannot find label for symbol '{key}'"
  | unreachable key displacement =>
    s!"Label '{key}' not reachable (displacement {displacement})"
  | missingVariant variant => s!"Instruction table has no `{variant}` variant for these operands"
  | file action path => s!"Failed to {action.verb} file: {path}"

/-- A cause and the line on which it is reported. -/
structure Diagnostic where
  line : Nat
  cause : Cause
  deriving DecidableEq, Repr

/-- The diagnostic in one line. -/
def Diagnostic.message (d : Diagnostic) : String :=
  s!"Line {d.line}: {d.cause.message}"

end Asm8
