/-
A folder as the files of a command: some named texts, in a place of its own
below the directory for temporary files. A path is followed step by step, and
the first step that cannot be taken decides. Outside the folder stand the
directories that every system has; of what they hold, only the sources that
are always empty are known.
-/
import Hypertext.Command.Run

namespace Hypertext.Command

def noSuchFile : String := "No such file or directory (os error 2)"

def notADirectory : String := "Not a directory (os error 20)"

def isADirectory : String := "Is a directory (os error 21)"

def nameTooLong : String := "File name too long (os error 36)"

/-- What a name stands for. -/
inductive Entry where
  | text (content : String)
  | directory (entries : List (String × Entry))

abbrev Directory := List (String × Entry)

/-- The directory that absolute paths start from. -/
def root : Directory :=
  ("dev", .directory [("null", .text ""), ("stdin", .text "")]) ::
    ["bin", "boot", "etc", "home", "lib", "media", "mnt", "opt", "proc", "root", "run", "sbin",
      "srv", "sys", "tmp", "usr", "var"].map (·, .directory [])

/-- The text at the end of the steps of a path, from a directory and those above it, the nearest
first. Nothing is above the last of them, nothing leads further from a text, and a name has at most
255 bytes. -/
def follow (here : Directory) (above : List Directory) : List String → Except String String
  | [] => .error isADirectory
  | name :: rest =>
    if name = "" ∨ name = "." then follow here above rest
    else if name = ".." then
      match above with
      | [] => follow here [] rest
      | parent :: above => follow parent above rest
    else if 255 < name.utf8ByteSize then .error nameTooLong
    else
      match here.lookup name with
      | some (.text content) => if rest = [] then .ok content else .error notADirectory
      | some (.directory entries) => follow entries (here :: above) rest
      | none => .error noSuchFile

structure Folder where
  texts : List (String × String) := []

def Folder.entries (folder : Folder) : Directory :=
  folder.texts.map fun (name, content) => (name, .text content)

/-- The files of a command that is run in the folder. A path has fewer than 4096 bytes. -/
def Folder.files (folder : Folder) : Files := fun path =>
  if path = "" then .error noSuchFile
  else if 4096 ≤ path.utf8ByteSize then .error nameTooLong
  else if path.toList.head? = some '/' then follow root [] (path.splitOn "/")
  else follow folder.entries [[], root] (path.splitOn "/")

end Hypertext.Command
