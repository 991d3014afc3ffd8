/-
# Files on a disk

A disk turns the path of an existing file or directory into its canonical
form, which is absolute and without detours, and gives the contents of files.
Source files on a disk are looked for from the working directory, then beside
the file that mentions them, then in the directories to search.

Key definitions: `Disk`, `Disk.isFile`, `Library.ofDisk`.
-/
import Asm6502.Files.Library

namespace Asm6502

/-- A disk that is read. -/
structure Disk where
  /-- The canonical path of something that exists. -/
  canonical (path : Path) : Except FileError Path
  /-- The contents of a file. -/
  read (path : Path) : Except FileError ByteArray

/-- Whether a path leads to a file. -/
def Disk.isFile (disk : Disk) (path : Path) : Bool := (disk.read path).toBool

namespace Library

/-- The paths under which a file may be meant, in the order in which they are
tried. -/
def candidates (searchPaths : List Path) (origin : Path) (name : String) : List Path :=
  ⟨name⟩ :: (origin.parent?.toList ++ searchPaths).map (·.join name)

/-- The source files of a disk. -/
def ofDisk (disk : Disk) (searchPaths : List Path) : Library where
  resolve origin name :=
    (candidates searchPaths origin name).findSome? fun path => (disk.canonical path).toOption
  read := disk.read
  interruptions _ _ := 0

end Library

end Asm6502
