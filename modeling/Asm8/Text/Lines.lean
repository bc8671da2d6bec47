/-!
Lines.

Three ways to look at the ends of lines. `splitAt` cuts at a separator and keeps every piece, also
the empty ones. `lines` reads a text whose lines end in LF or in CR LF. `withCRLF` writes every
line end, whichever of the three it was, as CR LF.
-/

namespace Asm8.Text

/-- The pieces between separators, in order. There is always one piece more than separators. -/
def splitAt (sep : Char) : List Char → List (List Char)
  | [] => [[]]
  | c :: cs =>
    if c = sep then [] :: splitAt sep cs
    else
      match splitAt sep cs with
      | [] => [[c]]
      | piece :: rest => (c :: piece) :: rest

/-- A line without the CR that stands right before its LF. -/
def dropReturn (cs : List Char) : List Char :=
  if cs.getLast? = some '\r' then cs.dropLast else cs

/-- The lines of a text over its characters. What follows the last LF is a line only if it is not
empty, and it keeps a CR at its end. -/
def lineChars (cs : List Char) : List (List Char) :=
  let pieces := splitAt '\n' cs
  pieces.dropLast.map dropReturn ++ (pieces.getLast?.toList.filter (· ≠ []))

/-- The lines of a text: each ends at an LF, one CR before the LF belongs to the line end, and a CR
elsewhere is an ordinary character. -/
def lines (s : String) : List String :=
  (lineChars s.toList).map String.ofList

/-- Replace a pattern wherever it is found, from left to right and without overlaps. The number says
how many characters of a pattern are still to be passed over. -/
def replaceFrom (pattern new : List Char) : Nat → List Char → List Char
  | _, [] => []
  | skip + 1, _ :: cs => replaceFrom pattern new skip cs
  | 0, c :: cs =>
    if pattern.isPrefixOf (c :: cs) then new ++ replaceFrom pattern new (pattern.length - 1) cs
    else c :: replaceFrom pattern new 0 cs

/-- Replace a pattern of at least one character. -/
def replace (pattern new cs : List Char) : List Char :=
  replaceFrom pattern new 0 cs

/-- The text with every line end written as CR LF: first all become LF, and then CR LF. -/
def withCRLF (s : String) : String :=
  let cs := replace ['\r', '\n'] ['\n'] s.toList
  let cs := replace ['\r'] ['\n'] cs
  String.ofList (replace ['\n'] ['\r', '\n'] cs)

end Asm8.Text
