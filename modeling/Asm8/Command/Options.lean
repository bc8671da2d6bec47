import Asm8.Text.Hex

/-!
Options of the command line.

Arguments are taken one after the other. An option has its value in the same argument (`-ox`,
`-o=x`, `--output=x`) or in the next one, which then must not look like an option. A cluster such as
`-djx` is the flag `d` and the option `j` with the value `x`. After `--` every argument is an input
file. Nothing may be given twice.
-/

namespace Asm8

/-- How much is logged. -/
inductive Level where
  | error
  | warn
  | info
  | debug
  | trace
  deriving DecidableEq, Repr

namespace Level

/-- All levels, the quietest first. -/
def all : List Level := [error, warn, info, debug, trace]

/-- The name of a level. -/
def name : Level → String
  | error => "error"
  | warn => "warn"
  | info => "info"
  | debug => "debug"
  | trace => "trace"

/-- The value of decimal digits. -/
def decimal? (cs : List Char) : Option Nat :=
  if cs ≠ [] ∧ cs.all Char.isDigit then
    some (cs.foldl (fun n c => 10 * n + (c.toNat - '0'.toNat)) 0)
  else none

/-- A level by its name in any case, or by its number from 1 on. -/
def ofText? (s : String) : Option Level :=
  match decimal? (Text.dropPlus s.toList) with
  | some 0 => none
  | some (n + 1) => all[n]?
  | none => all.find? (·.name = String.ofList (s.toList.map Char.toLower))

end Level

/-- What a command line asks for. -/
structure Options where
  input : String
  output : String
  table : Option String
  dump : Bool
  json : Option String
  level : Level
  deriving DecidableEq, Repr

/-- An option that takes a value. -/
inductive Setting where
  | output
  | table
  | json
  | level
  deriving DecidableEq, Repr

namespace Setting

/-- All options that take a value. -/
def all : List Setting := [output, table, json, level]

/-- The letter of an option. -/
def letter : Setting → Char
  | output => 'o'
  | table => 'c'
  | json => 'j'
  | level => 'l'

/-- The long name of an option. -/
def long : Setting → String
  | output => "output"
  | table => "catalog"
  | json => "json"
  | level => "log-level"

end Setting

/-- Arguments taken so far. -/
structure Arguments where
  input : Option String
  values : List (Setting × String)
  dump : Bool
  waiting : Option Setting
  onlyInput : Bool
  deriving DecidableEq, Repr

namespace Arguments

/-- Before the first argument. -/
def start : Arguments := ⟨none, [], false, none, false⟩

/-- The value of an option. -/
def value? (a : Arguments) (s : Setting) : Option String :=
  (a.values.find? (·.1 = s)).map (·.2)

/-- Give an option its value. -/
def set (a : Arguments) (s : Setting) (v : String) : Option Arguments :=
  if (a.value? s).isSome then none
  else some { a with values := a.values ++ [(s, v)], waiting := none }

/-- Leave the value of an option to the next argument. -/
def await (a : Arguments) (s : Setting) : Arguments :=
  { a with waiting := some s }

/-- Take the input file. -/
def setInput (a : Arguments) (v : String) : Option Arguments :=
  if a.input.isSome then none else some { a with input := some v }

/-- Ask for a dump. -/
def setDump (a : Arguments) : Option Arguments :=
  if a.dump then none else some { a with dump := true }

/-- The letters after a single dash. The first option with a value takes the rest as that value,
with or without an equals sign. -/
def takeLetters (a : Arguments) : List Char → Option Arguments
  | [] => some a
  | c :: cs =>
    if c = 'd' then
      match a.setDump with
      | none => none
      | some a => a.takeLetters cs
    else
      match Setting.all.find? (·.letter = c) with
      | none => none
      | some s =>
        match cs with
        | [] => some (a.await s)
        | '=' :: v => a.set s (String.ofList v)
        | v => a.set s (String.ofList v)

/-- The name after two dashes, with a value if an equals sign follows. -/
def takeLong (a : Arguments) (cs : List Char) : Option Arguments :=
  let name := String.ofList (cs.takeWhile (· ≠ '='))
  let value := (cs.dropWhile (· ≠ '=')).tail?.map String.ofList
  if name = "dump" then
    match value with
    | none => a.setDump
    | some _ => none
  else
    match Setting.all.find? (·.long = name), value with
    | none, _ => none
    | some s, none => some (a.await s)
    | some s, some v => a.set s v

/-- Take an argument that does not look like an option. A dash alone does not. -/
def takePlain (a : Arguments) (arg : String) : Option Arguments :=
  match a.waiting with
  | some s => a.set s arg
  | none => a.setInput arg

/-- Take one argument. -/
def take (a : Arguments) (arg : String) : Option Arguments :=
  if a.onlyInput then a.setInput arg
  else
    match arg.toList with
    | ['-', '-'] => some { a with onlyInput := true }
    | '-' :: '-' :: cs => if a.waiting.isSome then none else a.takeLong cs
    | ['-'] => a.takePlain arg
    | '-' :: cs => if a.waiting.isSome then none else a.takeLetters cs
    | _ => a.takePlain arg

/-- The options, once all arguments are taken and no value is missing. -/
def options? (a : Arguments) : Option Options :=
  if a.waiting.isSome then none
  else
    match (a.value? .level).map Level.ofText? with
    | some none => none
    | level =>
      some {
        input := a.input.getD "main.asm"
        output := (a.value? .output).getD "main.bin"
        table := a.value? .table
        dump := a.dump
        json := a.value? .json
        level := level.join.getD .warn }

end Arguments

/-- Read a command line. There is no result if it is not understood. -/
def Options.ofArguments? (args : List String) : Option Options := do
  let a ← args.foldlM Arguments.take .start
  a.options?

end Asm8
