import Mint.Source

/-!
# Files

A folder holds files by name and nothing else. A path is followed part by part: `.`
stays, `..` leaves the folder, and nothing is known of what lies outside it. Paths and
their parts are limited in length, counted in bytes: the limit on the whole path is
checked before it is followed, the limit on a part when it is reached.
-/

namespace Mint

/-- Why a file could not be opened. -/
inductive FileFault where
  | notFound
  | notADirectory
  | nameTooLong
  | nulInName
deriving DecidableEq

/-- How the fault is described to the user. -/
def FileFault.message : FileFault → String
  | notFound => "No such file or directory (os error 2)"
  | notADirectory => "Not a directory (os error 20)"
  | nameTooLong => "File name too long (os error 36)"
  | nulInName => "file name contained an unexpected NUL byte"

/-- What a path leads to. -/
inductive Entry where
  | file (source : Source)
  | directory

/-- A folder of files, by name. -/
structure Folder where
  files : List (String × Source)

namespace Folder

/-- The most bytes a part of a path may have. -/
def maxPart : Nat := 255

/-- The most bytes a path may have. -/
def maxPath : Nat := 4095

/-- Follows the parts of a path from a place in or above the folder. -/
def walk (folder : Folder) (inside : Bool) : List String → Except FileFault Entry
  | [] => .ok .directory
  | part :: rest =>
    if part = "" ∨ part = "." then walk folder inside rest
    else if part = ".." then walk folder false rest
    else if maxPart < part.utf8ByteSize then .error .nameTooLong
    else
      match inside, folder.files.lookup part, rest with
      | true, some source, [] => .ok (.file source)
      | true, some _, _ :: _ => .error .notADirectory
      | _, _, _ => .error .notFound

/-- What a path leads to. A path that starts with a slash leaves the folder. -/
def entry (folder : Folder) (path : String) : Except FileFault Entry :=
  if path.toList.contains '\x00' then .error .nulInName
  else if maxPath < path.utf8ByteSize then .error .nameTooLong
  else if path = "" then .error .notFound
  else folder.walk (!path.startsWith "/") (path.splitOn "/")

end Folder

end Mint
