import Asm8.Assembly

/-!
An assembled program as JSON text.

The text is laid out with one element per line and two spaces per level. Only quotes, backslashes
and control characters below U+0020 are escaped.
-/

namespace Asm8

namespace Json

/-- A digit of an escape, in lower case. -/
def escapeDigit (n : Nat) : Char :=
  (Text.hexChar n).toLower

/-- A character inside a string. -/
def escapeChar (c : Char) : List Char :=
  match c with
  | '"' => ['\\', '"']
  | '\\' => ['\\', '\\']
  | '\n' => ['\\', 'n']
  | '\r' => ['\\', 'r']
  | '\t' => ['\\', 't']
  | _ =>
    if c.toNat = 0x08 then ['\\', 'b']
    else if c.toNat = 0x0C then ['\\', 'f']
    else if c.toNat < 0x20 then
      ['\\', 'u', '0', '0', escapeDigit (c.toNat / 16), escapeDigit (c.toNat % 16)]
    else [c]

/-- A string with its quotes. -/
def quote (s : String) : String :=
  String.ofList ('"' :: s.toList.flatMap escapeChar ++ ['"'])

/-- The spaces before an element of a level. -/
def indent (level : Nat) : String :=
  String.ofList (List.replicate (2 * level) ' ')

/-- Elements between brackets, each on a line one level further in; no lines if there are none. -/
def block (opening closing : String) (level : Nat) (items : List String) : String :=
  if items = [] then opening ++ closing
  else
    opening ++ "\n" ++ ",\n".intercalate (items.map (indent (level + 1) ++ ·)) ++ "\n" ++
      indent level ++ closing

/-- An array whose elements are written already. -/
def array (level : Nat) (items : List String) : String :=
  block "[" "]" level items

/-- An object whose values are written already. -/
def object (level : Nat) (fields : List (String × String)) : String :=
  block "\x7b" "\x7d" level (fields.map fun (k, v) => quote k ++ ": " ++ v)

/-- A truth value. -/
def bool (b : Bool) : String :=
  if b then "true" else "false"

/-- A number that may be missing. -/
def number? : Option Nat → String
  | none => "null"
  | some n => toString n

end Json

/-- The word for a role. -/
def Role.word : Role → String
  | definition => "Definition"
  | reference .relative => "Relative"
  | reference .absolute => "Absolute"

/-- A symbol as an object. -/
def Symbol.json (level : Nat) (s : Symbol) : String :=
  Json.object level
    [("name", Json.quote s.name), ("role", Json.quote s.role.word),
     ("address", toString s.address), ("line", toString s.line)]

/-- The program as an object: bytes, written cells, the line of each cell, and all symbols. -/
def Assembly.json (a : Assembly) : String :=
  Json.object 0
    [("ram", Json.array 1 (a.image.ram.map fun b => toString b.toNat)),
     ("used", Json.array 1 (a.image.used.map Json.bool)),
     ("lines", Json.array 1 (a.lines.toList.map Json.number?)),
     ("labels", Json.array 1 (a.symbols.entries.map (Symbol.json 2)))]

end Asm8
