/-!
# Disks

Files by their paths. A path is followed from folder to folder, and each way in which this fails has
its own cause.
-/

namespace Famicom

/-- Why a file could not be read. -/
inductive FileError
  | notFound
  | accessDenied
  | notDirectory
  | isDirectory
  | nameTooLong
  | other (text : String)
deriving DecidableEq, Repr

def FileError.message : FileError → String
  | notFound => "No such file or directory (os error 2)"
  | accessDenied => "Permission denied (os error 13)"
  | notDirectory => "Not a directory (os error 20)"
  | isDirectory => "Is a directory (os error 21)"
  | nameTooLong => "File name too long (os error 36)"
  | other text => text

namespace Disk

/-- What a name in a folder stands for. -/
inductive Node
  | file (content : ByteArray)
  | folder (entries : List (String × Node))

/-- A node and the folders around it, the nearest first. -/
structure Place where
  here : Node
  around : List Node

/-- The folder around a place. Nothing is around the outermost folder but itself. -/
def Place.parent (place : Place) : Place :=
  match place.around with
  | [] => place
  | folder :: around => ⟨folder, around⟩

/-- The most bytes in a name. -/
def nameLimit : Nat := 255

/-- The most bytes in a path. -/
def pathLimit : Nat := 4095

/-- Follows one name. Only a folder can be left, be it for itself or for the folder around it. -/
def Place.follow (place : Place) (name : String) : Except FileError Place :=
  match place.here with
  | .file _ => .error .notDirectory
  | .folder entries =>
    if name = "." then .ok place
    else if name = ".." then .ok place.parent
    else if name.utf8ByteSize > nameLimit then .error .nameTooLong
    else
      match entries.lookup name with
      | some node => .ok ⟨node, place.here :: place.around⟩
      | none => .error .notFound

/-- A path: whether it starts at the outermost folder, the names to follow, and whether it must end
at a folder. -/
structure Path where
  fromRoot : Bool
  names : List String
  toFolder : Bool
deriving DecidableEq, Repr

/-- Slashes part the names, and several count as one. -/
def Path.ofString (text : String) : Path where
  fromRoot := text.toList.head? = some '/'
  names := (text.splitOn "/").filter (· ≠ "")
  toFolder := text.toList.getLast? = some '/'

/-- The content of a file at the end of a path. -/
def Place.content (place : Place) (toFolder : Bool) : Except FileError ByteArray :=
  match place.here with
  | .folder _ => .error .isDirectory
  | .file content => if toFolder then .error .notDirectory else .ok content

end Disk

/-- The outermost folder, and the names that lead from there to the working folder. -/
structure Disk where
  root : Disk.Node
  working : List String

namespace Disk

def top (disk : Disk) : Place := ⟨disk.root, []⟩

/-- The place where a path starts. -/
def start (disk : Disk) (fromRoot : Bool) : Except FileError Place :=
  if fromRoot then .ok disk.top else disk.working.foldlM Place.follow disk.top

def read (disk : Disk) (text : String) : Except FileError ByteArray := do
  if text = "" then throw .notFound
  if text.utf8ByteSize > pathLimit then throw .nameTooLong
  let path := Path.ofString text
  let place ← path.names.foldlM Place.follow (← disk.start path.fromRoot)
  place.content path.toFolder

/-- What every system has: its folders, a device that holds nothing and a list of accounts. -/
def systemFolders : List (String × Node) := [
  ("bin", .folder []),
  ("dev", .folder [("null", .file .empty)]),
  ("etc", .folder [("passwd", .file "root:x:0:0:root:/root:/bin/sh\n".toUTF8)]),
  ("home", .folder []),
  ("lib", .folder []),
  ("proc", .folder []),
  ("sys", .folder []),
  ("usr", .folder []),
  ("var", .folder [])]

/-- A system whose working folder holds some files. -/
def ofFiles (files : List (String × ByteArray)) : Disk where
  root := .folder (("tmp", .folder [("work", .folder (files.map fun (name, content) =>
    (name, .file content)))]) :: systemFolders)
  working := ["tmp", "work"]

end Disk

end Famicom
