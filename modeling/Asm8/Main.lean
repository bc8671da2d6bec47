import Asm8.Command.Run

/-!
The command line program.
-/

namespace Asm8

/-- The fault behind an error of the operating system. -/
def FileFault.ofError : IO.Error → FileFault
  | .noFileOrDirectory .. => .notFound
  | .inappropriateType _ code _ => if code = 20 then .notDirectory else .isDirectory
  | e => .other (toString e)

instance : Host IO where
  print := IO.print
  readFile path := do
    try return .ok (← IO.FS.readBinFile path)
    catch e => return .error (.ofError e)
  writeFile path content := do
    try return .ok (← IO.FS.writeBinFile path content)
    catch e => return .error (.ofError e)

end Asm8

/-- Run the command and end with its exit code. -/
def main (args : List String) : IO UInt32 := do
  let exit : Asm8.Exit ← Asm8.Command.runArguments args
  return exit.code.toUInt32
