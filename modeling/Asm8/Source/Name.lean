import Asm8.Text.Blank
import Asm8.Text.Hex

/-!
Names of labels and symbols.

A name must not read as a number and must not hold a reserved or a control character. Which
character is reported follows the list of reserved characters, not the name.
-/

namespace Asm8.Name

/-- The reserved characters, in the order in which they are looked for. -/
def reserved : List Char :=
  "@|§°ç~<>+\"*%&/()=?^'-.\x7b\x7däöü!ÄÖÜ$Ł".toList

/-- The first of the given characters that the name holds, or else its first control character. -/
def refusedFrom? (forbidden : List Char) (name : String) : Option Char :=
  (forbidden.find? fun c => name.toList.contains c) <|> name.toList.find? Text.isControl

/-- The character for which a label is refused. -/
def refusedInLabel? (name : String) : Option Char :=
  refusedFrom? reserved name

/-- The character for which a symbol is refused; a symbol must not hold a colon either. -/
def refusedInSymbol? (name : String) : Option Char :=
  refusedFrom? (reserved ++ [':']) name

/-- One or two digits, with letters in upper case only. A symbol must not look like this; a label
must not be a number in either case. -/
def isUpperHex (name : String) : Bool :=
  (name.length = 1 || name.length = 2) &&
    name.toList.all fun c => ('0' ≤ c && c ≤ '9') || ('A' ≤ c && c ≤ 'F')

end Asm8.Name
