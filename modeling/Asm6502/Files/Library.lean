/-
# Where source files come from

A run reads source and binary files through a `Library`, which finds the file
that a statement names and gives its contents. While a file is read, other
parties may start or cancel runs; `interruptions` says how often they do so,
which is how a run comes to be overtaken in its middle.

Key definitions: `FileError`, `Library`, `Library.ofFiles`, `Library.readText`.
-/
import Asm6502.Files.Path

namespace Asm6502

/-- Why a file cannot be read or written. -/
inductive FileError
  /-- The collection of files has none at this path. -/
  | absent (path : Path)
  | noSuchFile
  | notADirectory
  | isDirectory
  /-- A path, or a piece of it, has too many bytes. -/
  | nameTooLong
  /-- A path holds a character of code 0. -/
  | nulInName
  /-- The contents are not text in UTF-8. -/
  | notText
  | other (message : String)
deriving DecidableEq, Repr

/-- The wording of an error. What is wrong with a text is not told. -/
def FileError.message : FileError → String
  | .absent path => path.text ++ " not found"
  | .noSuchFile => "No such file or directory (os error 2)"
  | .notADirectory => "Not a directory (os error 20)"
  | .isDirectory => "Is a directory (os error 21)"
  | .nameTooLong => "File name too long (os error 36)"
  | .nulInName => "file name contained an unexpected NUL byte"
  | .notText => ""
  | .other message => message

/-- A source of files. -/
structure Library where
  /-- Finds the file `name` as the file `origin` means it. -/
  resolve (origin : Path) (name : String) : Option Path
  /-- The contents of a file. -/
  read (path : Path) : Except FileError ByteArray
  /-- How many runs others start or cancel while the `n`th read of a run, which is
  of this path, takes place. -/
  interruptions (n : Nat) (path : Path) : Nat

namespace Library

/-- The contents of a file as text. -/
def textOf (bytes : ByteArray) : Except FileError String :=
  match String.fromUTF8? bytes with
  | some text => .ok text
  | none => .error .notText

/-- The contents of a file, which must be text. -/
def readText (lib : Library) (path : Path) : Except FileError String :=
  lib.read path >>= textOf

/-- The contents of the file at a path of a collection. Of two at one path the
later counts. -/
def contents? (files : List (Path × ByteArray)) (path : Path) : Option ByteArray :=
  files.foldl (fun found (p, bytes) => if p.same path then some bytes else found) none

/-- Whether a collection of files has one at a path. -/
def holds (files : List (Path × ByteArray)) (path : Path) : Bool := (contents? files path).isSome

/-- A collection of files held in memory. A name is looked for as it stands and
then beside the file that mentions it. -/
def ofFiles (files : List (Path × ByteArray)) : Library where
  resolve origin name :=
    if holds files ⟨name⟩ then some ⟨name⟩
    else
      match origin.parent? with
      | none => none
      | some directory =>
        let beside := directory.join name
        if holds files beside then some beside else none
  read path :=
    match contents? files path with
    | some bytes => .ok bytes
    | none => .error (.absent path)
  interruptions _ _ := 0

end Library

end Asm6502
