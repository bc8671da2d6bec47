/-!
Styles of terminal text.

A styled piece starts with the codes that switch the style on and ends with those that switch it
off. The text between them is left as it is.
-/

namespace Asm8

/-- How a piece of terminal text looks. -/
inductive Style where
  | green
  | yellow
  | dim
  | blue
  | underline
  | alarm
  deriving DecidableEq, Repr

namespace Style

/-- The codes before the text. -/
def on : Style → String
  | green => "\x1b[32m"
  | yellow => "\x1b[33m"
  | dim => "\x1b[2m"
  | blue => "\x1b[34m"
  | underline => "\x1b[4m"
  | alarm => "\x1b[31m\x1b[1m"

/-- The codes after the text. -/
def off : Style → String
  | green => "\x1b[39m"
  | yellow => "\x1b[39m"
  | dim => "\x1b[22m"
  | blue => "\x1b[39m"
  | underline => "\x1b[24m"
  | alarm => "\x1b[39m\x1b[22m"

/-- The text in this style. -/
def paint (style : Style) (s : String) : String :=
  style.on ++ s ++ style.off

end Style

end Asm8
