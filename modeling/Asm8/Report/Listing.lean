import Asm8.Assembly
import Asm8.Report.Style

/-!
Listings: source lines beside the bytes they produced.

The source lines are built again from the tokens, each token at its column. A line that wrote bytes
has one row for every four of them, and only the first of these rows shows the line; a line that
wrote none has one row without address.
-/

namespace Asm8

/-- One row of a listing: up to four bytes from an address on, and the number and text of the source
line if this is the line's first row. -/
structure ListingRow where
  address : Nat
  bytes : List UInt8
  source : Option (Nat × String)
  deriving DecidableEq, Repr

namespace ListingRow

/-- A number filled up with spaces to four places. -/
def lineNumber (n : Nat) : String :=
  String.ofList (Text.padLeft 4 ' ' (toString n).toList)

/-- Address and bytes, or nothing where no bytes are. -/
def code (r : ListingRow) : String :=
  if r.bytes = [] then ""
  else "[" ++ Text.hex r.address ++ "] " ++ " ".intercalate (r.bytes.map Text.hexByte)

/-- The number and text of the source line, or nothing on a later row of the line. -/
def body (r : ListingRow) : String :=
  match r.source with
  | none => ""
  | some (n, line) => lineNumber n ++ ": " ++ line

/-- The row as text. -/
def text (r : ListingRow) : String :=
  String.ofList (Text.padRight 17 r.code.toList) ++ "| " ++ r.body

end ListingRow

namespace Listing

/-- Tokens in groups that end at a newline, each with the number of its line. Tokens after the last
newline form a group of their own, with the line of its first token. -/
def tokenLines : List Token → List Token → List (Nat × List Token)
  | [], [] => []
  | group@(first :: _), [] => [(first.line, group)]
  | group, t :: ts =>
    if t.kind = .newline then (t.line, group) :: tokenLines [] ts
    else tokenLines (group ++ [t]) ts

/-- The style of a token where colours are wanted. -/
def style? : Kind → Option Style
  | .label _ => some .green
  | .comment _ => some .dim
  | .character _ | .string _ => some .yellow
  | _ => none

/-- The spelling of a token, painted where colours are wanted. -/
def tokenText (colour : Bool) (kind : Kind) : String :=
  match style? kind with
  | some style => if colour then style.paint kind.spelling else kind.spelling
  | none => kind.spelling

/-- The tokens of a line from a column on, each at its own column or right after the one before. -/
def lineTextFrom (colour : Bool) (col : Nat) : List Token → String
  | [] => ""
  | t :: ts =>
    String.ofList (List.replicate (t.col - col) ' ') ++ tokenText colour t.kind ++
      lineTextFrom colour (max col t.col + t.kind.spelling.length) ts

/-- The text of a source line. -/
def lineText (colour : Bool) (ts : List Token) : String :=
  lineTextFrom colour 1 ts

/-- A list in pieces of four, the last one possibly shorter. -/
def quads {α : Type} : List α → List (List α)
  | [] => []
  | a :: b :: c :: d :: rest => [a, b, c, d] :: quads rest
  | short => [short]

end Listing

namespace Assembly

/-- The addresses that a source line wrote, in ascending order. -/
def addressesOf (a : Assembly) (line : Nat) : List Nat :=
  (List.range 256).filter fun address => a.lines[address]? = some (some line)

/-- The row for some addresses of a line; the first address stands for the row. -/
def listingRow (a : Assembly) (addresses : List Nat) (source : Option (Nat × String)) :
    ListingRow where
  address := addresses.headD 0
  bytes := addresses.map fun address => (a.image.get? address).getD 0
  source := source

/-- The rows of one source line. -/
def rowsOf (a : Assembly) (line : Nat) (text : String) : List ListingRow :=
  match Listing.quads (a.addressesOf line) with
  | [] => [a.listingRow [] (some (line, text))]
  | quad :: rest => a.listingRow quad (some (line, text)) :: rest.map (a.listingRow · none)

/-- The rows of all source lines. -/
def listingRows (a : Assembly) (colour : Bool) : List ListingRow :=
  (Listing.tokenLines [] a.tokens).flatMap fun (line, ts) =>
    a.rowsOf line (Listing.lineText colour ts)

/-- The listing, one text per row. -/
def listing (a : Assembly) (colour : Bool) : List String :=
  (a.listingRows colour).map ListingRow.text

end Assembly

end Asm8
