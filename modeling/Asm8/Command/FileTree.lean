import Asm8.Command.Host
import Asm8.Text.Lines

/-!
A tree of files.

Every entry is known by the names that lead to it from the root. A path is followed name by name,
from the root if it starts with a slash and from the working directory otherwise; `..` leads one
folder up, and at the root it leads nowhere. Only a folder has names in it. A folder cannot be read
or written, and the null device is always empty, whatever is written to it.
-/

namespace Asm8

/-- Contents are equal when their bytes are. -/
local instance decEqContent : DecidableEq ByteArray := ByteArray.decEq

/-- What names stand for. -/
inductive Entry where
  | file (content : ByteArray)
  | folder
  | nullDevice
  deriving DecidableEq

/-- Entries by the names that lead to them from the root, and the working directory. -/
structure FileTree where
  entries : List (List String × Entry)
  home : List String
  deriving DecidableEq

namespace FileTree

/-- What stands at a place. The root is a folder, and so is every place with something below it. -/
def entryAt? (t : FileTree) (place : List String) : Option Entry :=
  match t.entries.find? (·.1 = place) with
  | some e => some e.2
  | none => if place = [] ∨ t.entries.any (place.isPrefixOf ·.1) then some .folder else none

/-- The place of a name in a folder. -/
def enter (place : List String) (name : String) : List String :=
  if name = "" ∨ name = "." then place
  else if name = ".." then place.dropLast
  else place ++ [name]

/-- Follow one name from a place. -/
def follow (t : FileTree) (place : List String) (name : String) :
    Except FileFault (List String) :=
  match t.entryAt? place with
  | none => .error .notFound
  | some .folder => .ok (enter place name)
  | some _ => .error .notDirectory

/-- The names of a path. A leading slash gives an empty name first, and a trailing one last. -/
def names (path : String) : List String :=
  (Text.splitAt '/' path.toList).map String.ofList

/-- Where a path starts. -/
def origin (t : FileTree) (path : String) : List String :=
  if path.toList.head? = some '/' then [] else t.home

/-- Follow names from where a path starts. -/
def walk (t : FileTree) (path : String) (ns : List String) : Except FileFault (List String) :=
  ns.foldlM t.follow (t.origin path)

/-- The content of the file at a path. -/
def read (t : FileTree) (path : String) : Except FileFault ByteArray :=
  if path = "" then .error .notFound
  else do
    let place ← t.walk path (names path)
    match t.entryAt? place with
    | none => .error .notFound
    | some .folder => .error .isDirectory
    | some (.file content) => .ok content
    | some .nullDevice => .ok .empty

/-- Put a file at a place. -/
def put (t : FileTree) (place : List String) (content : ByteArray) : FileTree :=
  if t.entries.any (·.1 = place) then
    { t with entries := t.entries.map fun e => if e.1 = place then (place, .file content) else e }
  else { t with entries := t.entries ++ [(place, .file content)] }

/-- Give the file at a path a new content. The folder of the file must exist; a path that ends in a
slash or in a dotted name stands for a folder. -/
def write (t : FileTree) (path : String) (content : ByteArray) : Except FileFault FileTree :=
  if path = "" then .error .notFound
  else
    let ns := names path
    match ns.reverse.dropWhile (· = "") with
    | [] => .error .isDirectory
    | last :: before =>
      if last = "." ∨ last = ".." then do
        let _ ← t.walk path ns
        .error .isDirectory
      else do
        let folder ← t.walk path before.reverse
        let place ← t.follow folder last
        if ns.getLast? = some "" then .error .isDirectory
        else
          match t.entryAt? place with
          | some .folder => .error .isDirectory
          | some .nullDevice => .ok t
          | _ => .ok (t.put place content)

/-- The files right in the working directory, by name. -/
def homeFiles (t : FileTree) : List (String × ByteArray) :=
  t.entries.filterMap fun (place, entry) =>
    match entry, place.getLast? with
    | .file content, some name =>
      if place.dropLast = t.home then some (name, content) else none
    | _, _ => none

/-- The usual folders at the root of a system. -/
def systemFolders : List String :=
  ["bin", "dev", "etc", "home", "lib", "opt", "proc", "root", "run", "sbin", "sys", "tmp", "usr",
   "var"]

/-- A new working directory that holds some entries, among the temporary files of a system with the
usual folders and a null device. -/
def ofEntries (entries : List (List String × Entry)) : FileTree where
  home := ["tmp", "work"]
  entries :=
    systemFolders.map (fun name => ([name], .folder)) ++
      [(["dev", "null"], .nullDevice), (["tmp", "work"], .folder)] ++
      entries.map fun e => (["tmp", "work"] ++ e.1, e.2)

end FileTree

/-- A write that fails leaves the tree as it is. -/
instance : Files FileTree where
  read := FileTree.read
  write t path content :=
    match t.write path content with
    | .error fault => (.error fault, t)
    | .ok t' => (.ok (), t')

end Asm8
