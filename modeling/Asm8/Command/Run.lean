import Asm8.Command.Host
import Asm8.Command.Options
import Asm8.Isa.Builtin
import Asm8.Report.Dump
import Asm8.Report.Excerpt
import Asm8.Report.Json

/-!
The command: read a table and a source, assemble, write the image.

    table ──▶ source ──▶ assemble ──▶ write image ──▶ write JSON ──▶ dump
      │fatal     │failure    │failure      │failure         │failure

Each stage prints what it is about to do. The first stage that fails prints why, and decides how the
command ends.
-/

namespace Asm8

/-- How the command ends. -/
inductive Exit where
  | success
  | failure
  | fatal
  deriving DecidableEq, Repr

/-- The number that a caller sees. -/
def Exit.code : Exit → Nat
  | success => 0
  | failure => 1
  | fatal => 2

namespace Command

variable {m : Type → Type} [Monad m] [Host m]

/-- Print text as it is. -/
def put (s : String) : ExceptT Exit m Unit :=
  ExceptT.lift (Host.print s)

/-- Print a line. -/
def say (s : String) : ExceptT Exit m Unit :=
  put (s ++ "\n")

/-- Print and end. -/
def quit {α : Type} (exit : Exit) (s : String) : ExceptT Exit m α := do
  put s
  throw exit

/-- End because of a file. -/
def fileFailure {α : Type} (action : FileAction) (path : String) (fault : FileFault) :
    ExceptT Exit m α :=
  quit .failure (alarmLine "error" (Cause.file action path).message ++
    "  " ++ Style.blue.paint "caused by" ++ ": " ++ fault.message ++ "\n")

/-- The text of a file, which must be valid UTF-8. -/
def textOf (content : Except FileFault ByteArray) : Except FileFault String :=
  match content with
  | .error fault => .error fault
  | .ok bytes =>
    match String.fromUTF8? bytes with
    | none => .error .notText
    | some s => .ok s

/-- Read a text file or end. -/
def load (path : String) : ExceptT Exit m String := do
  let content ← ExceptT.lift (Host.readFile path)
  match textOf content with
  | .error fault => fileFailure .reading path fault
  | .ok s => pure s

/-- Write a file or end. -/
def store (path : String) (content : ByteArray) : ExceptT Exit m Unit := do
  say s!"  > {path}"
  let done ← ExceptT.lift (Host.writeFile path content)
  match done with
  | .error fault => fileFailure .writing path fault
  | .ok () => pure ()

/-- The table to assemble with. A file that can be read but is no table is fatal. -/
def loadTable (path : Option String) : ExceptT Exit m Table := do
  say "1. Read Instruction Table"
  match path with
  | none => pure Table.builtin
  | some path =>
    say s!"  < {path}"
    let text ← load path
    match Table.read text with
    | .error e => quit .fatal (alarmLine "fatal" e.message)
    | .ok t => pure t

/-- The source with every line end as CR LF. -/
def loadSource (path : String) : ExceptT Exit m String := do
  say "2. Read Source"
  say s!"  < {path}"
  let text ← load path
  pure (Text.withCRLF text)

/-- Assemble or show the diagnostic. -/
def check (t : Table) (path source : String) : ExceptT Exit m Assembly := do
  say "3. Check Syntax & Resolve Labels"
  match assemble t source with
  | .error d => quit .failure (d.excerpt path source)
  | .ok a => pure a

/-- Write the image, and the JSON text if a path is given for it. -/
def deliver (o : Options) (a : Assembly) : ExceptT Exit m Unit := do
  say "4. Write Binary"
  store o.output ⟨a.image.ram.toArray⟩
  match o.json with
  | none => pure ()
  | some path => store path a.json.toUTF8

/-- All stages in order. -/
def stages (o : Options) : ExceptT Exit m Unit := do
  say "Stasm Assembler"
  let t ← loadTable o.table
  let source ← loadSource o.input
  let a ← check t o.input source
  deliver o a
  if o.dump then put a.dump
  say "Success: No errors found"

/-- Run the command with its options. -/
def run (o : Options) : m Exit := do
  match ← (stages o).run with
  | .ok () => pure .success
  | .error exit => pure exit

/-- Run the command with its arguments. A command line that is not understood is fatal, and nothing
is done. -/
def runArguments (args : List String) : m Exit :=
  match Options.ofArguments? args with
  | none => pure .fatal
  | some o => run o

end Command

end Asm8
