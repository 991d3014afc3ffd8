/-
# Trees of files

A tree of files, with a working directory, as a value. A directory exists if
it holds a file or leads to the working directory. A path is followed piece by
piece; each piece but the last has to be a directory, also when the next one
leads back out of it, and so has one before a slash.

Writing creates a file or replaces its contents. The directory must be there
already, and a slash at the end can only mean a directory.

A piece of a path has at most 255 bytes. A path by which a file is opened has
at most 4095; one that is only followed may be longer. No path holds a
character of code 0.

Key definitions: `FileTree`, `FileTree.follow`, `FileTree.disk`,
`FileTree.write`.
-/
import Asm6502.Files.Disk

namespace Asm6502

/-- Files by the steps that lead to them from the root. -/
structure FileTree where
  files : List (List String × ByteArray)
  /-- The steps to the working directory. -/
  directory : List String
deriving Inhabited

namespace FileTree

/-- The most bytes of a piece of a path. -/
def maxPieceBytes : Nat := 255

/-- The most bytes of a path by which a file is opened. -/
def maxPathBytes : Nat := 4095

/-- The contents of the file at the end of some steps. -/
def contents? (t : FileTree) (steps : List String) : Option ByteArray :=
  (t.files.find? fun file => file.1 == steps).map (·.2)

/-- Whether steps lead to a directory. -/
def isDirectory (t : FileTree) (steps : List String) : Bool :=
  steps.isPrefixOf t.directory ||
    t.files.any fun file => steps.isPrefixOf file.1 && steps != file.1

/-- Whether steps lead to something. -/
def exists? (t : FileTree) (steps : List String) : Bool :=
  t.isDirectory steps || (t.contents? steps).isSome

/-- Whether a piece of a path has too many bytes. -/
def isTooLong (piece : String) : Bool := piece.utf8ByteSize > maxPieceBytes

/-- Follows the pieces of a path from the steps taken so far. -/
def followFrom (t : FileTree) (steps : List String) : List String → Except FileError (List String)
  | [] => .ok steps
  | piece :: pieces =>
    if !t.isDirectory steps then .error .notADirectory
    else if piece == "" || piece == "." then t.followFrom steps pieces
    else if piece == ".." then t.followFrom steps.dropLast pieces
    else if isTooLong piece then .error .nameTooLong
    else if t.exists? (steps ++ [piece]) then t.followFrom (steps ++ [piece]) pieces
    else .error .noSuchFile

/-- The steps that a path starts from. -/
def startOf (t : FileTree) (path : Path) : List String :=
  if path.isAbsolute then [] else t.directory

/-- Follows a path to something that exists. -/
def follow (t : FileTree) (path : Path) : Except FileError (List String) :=
  if path.hasNul then .error .nulInName
  else if path.text.isEmpty then .error .noSuchFile
  else t.followFrom (t.startOf path) (Path.pieces path.text)

/-- The absolute path of some steps. -/
def absolute (steps : List String) : Path := ⟨"/" ++ "/".intercalate steps⟩

/-- Refuses a path by which no file can be opened, whatever files there are. -/
def checkOpen (path : Path) : Except FileError Unit :=
  if path.hasNul then .error .nulInName
  else if path.text.utf8ByteSize > maxPathBytes then .error .nameTooLong
  else .ok ()

/-- The contents of the file that a path leads to. -/
def read (t : FileTree) (path : Path) : Except FileError ByteArray := do
  checkOpen path
  match t.contents? (← t.follow path) with
  | some bytes => return bytes
  | none => throw .isDirectory

/-- The tree as a disk. -/
def disk (t : FileTree) : Disk where
  canonical path := (t.follow path).map absolute
  read := t.read

/-- The tree with the contents of a file put in place. -/
def put (t : FileTree) (steps : List String) (bytes : ByteArray) : FileTree :=
  if (t.contents? steps).isSome then
    { t with files := t.files.map fun file => if file.1 == steps then (steps, bytes) else file }
  else { t with files := t.files ++ [(steps, bytes)] }

/-- The pieces of a path without empty ones at its end, in reverse, and whether
there were any. -/
def lastPieces (path : Path) : List String × Bool :=
  let pieces := (Path.pieces path.text).reverse
  let kept := pieces.dropWhile (· == "")
  (kept, kept.length < pieces.length)

/-- Writes a file, which is created if need be. -/
def write (t : FileTree) (path : Path) (bytes : ByteArray) : Except FileError FileTree := do
  checkOpen path
  match lastPieces path with
  | ([], slash) => throw (if slash && !path.text.isEmpty then .isDirectory else .noSuchFile)
  | (last :: before, slash) =>
    let steps ← t.followFrom (t.startOf path) before.reverse
    if !t.isDirectory steps then throw .notADirectory
    if slash || last == "." || last == ".." then throw .isDirectory
    if isTooLong last then throw .nameTooLong
    if t.isDirectory (steps ++ [last]) then throw .isDirectory
    return t.put (steps ++ [last]) bytes

end FileTree

end Asm6502
