/-!
What a command needs of the world around it: text to print, files to read and to write.

A host does these things for real, or on a desk: with files of some kind and a sheet that takes what
is printed. Nothing is assumed of such files. Whether a write succeeds is theirs to say, and what is
left when it does not, too.
-/

namespace Asm8

/-- Why a file cannot be used. -/
inductive FileFault where
  | notFound
  | notDirectory
  | isDirectory
  | notText
  | other (message : String)
  deriving DecidableEq, Repr

/-- The wording of a file fault. -/
def FileFault.message : FileFault → String
  | notFound => "No such file or directory (os error 2)"
  | notDirectory => "Not a directory (os error 20)"
  | isDirectory => "Is a directory (os error 21)"
  | notText => "stream did not contain valid UTF-8"
  | other message => message

/-- A place where a command can run. -/
class Host (m : Type → Type) where
  /-- Write text for the user. -/
  print : String → m Unit
  /-- The content of a file. -/
  readFile : String → m (Except FileFault ByteArray)
  /-- Give a file a new content, and create it if there is none. -/
  writeFile : String → ByteArray → m (Except FileFault Unit)

/-- Files that can be read and written by their paths. Reading changes nothing; a write comes with
what it leaves, whether it succeeds or not. -/
class Files (F : Type) where
  read : F → String → Except FileFault ByteArray
  write : F → String → ByteArray → Except FileFault Unit × F

/-- Files and the text printed so far. -/
structure Desk (F : Type) where
  files : F
  printed : String

/-- Computations that work on files and print. -/
abbrev AtDesk (F : Type) := StateM (Desk F)

instance {F : Type} [Files F] : Host (AtDesk F) where
  print s := modify fun desk => { desk with printed := desk.printed ++ s }
  readFile path := do return Files.read (← get).files path
  writeFile path content := modifyGet fun desk =>
    let (done, files) := Files.write desk.files path content
    (done, { desk with files })

end Asm8
