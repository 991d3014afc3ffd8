/-
# Main

Runs the program on the files of the machine. The program itself reads a disk
that is a value, so the files it asks for are loaded first: it is run on what
is known, what it asked for is loaded, and so on until nothing new is asked
for. Only then the log is shown and files are written.

Key definitions: `Snapshot`, `main`.
-/
import Std.Data.TreeMap
import Std.Time.DateTime.Timestamp
import Asm6502.CommandLine.Program

namespace Asm6502

/-- What is known of the disk, by the spelling of paths. -/
structure Snapshot where
  places : Std.TreeMap String (Except FileError Path)
  contents : Std.TreeMap String (Except FileError ByteArray)

namespace Snapshot

/-- The snapshot as a disk. What is not known counts as missing. -/
def disk (s : Snapshot) : Disk where
  canonical path := s.places.getD path.text (.error .noSuchFile)
  read path := s.contents.getD path.text (.error .noSuchFile)

/-- The cause of an error of the machine. -/
def causeOf : IO.Error → FileError
  | .noFileOrDirectory .. => .noSuchFile
  | .inappropriateType _ 20 _ => .notADirectory
  | .inappropriateType _ 21 _ => .isDirectory
  | .invalidArgument _ 36 _ => .nameTooLong
  | e => .other (toString e)

/-- Does something with a path on the machine that may fail. -/
def attempt (path : Path) (action : IO α) : IO (Except FileError α) := do
  if path.hasNul then return .error .nulInName
  match ← action.toBaseIO with
  | .ok a => return .ok a
  | .error e => return .error (causeOf e)

/-- Loads what a path leads to. -/
def loadOne (s : Snapshot) (path : String) : IO Snapshot := do
  let place ← attempt ⟨path⟩ (return Path.mk (← IO.FS.realPath path).toString)
  let bytes ← attempt ⟨path⟩ (IO.FS.readBinFile path)
  let s := ⟨s.places.insert path place, s.contents.insert path bytes⟩
  match place with
  | .ok canonical => return { s with contents := s.contents.insert canonical.text bytes }
  | .error _ => return s

/-- Loads what paths lead to, unless it is known. -/
def load (s : Snapshot) (paths : List Path) : IO Snapshot :=
  paths.foldlM (fun s path => if s.places.contains path.text then pure s else s.loadOne path.text) s

end Snapshot

/-- The paths that the program asks for before it assembles. -/
def firstPaths (arguments : Arguments) : List Path :=
  arguments.source :: (arguments.config.or (Program.settingsBeside? arguments.source)).toList

/-- Runs the program on more and more of the disk until it asks for nothing
new. -/
partial def settle (clock : Int) (arguments : Arguments) (s : Snapshot) : IO Program.Report := do
  let report := Program.report s.disk clock arguments
  if report.asked.all fun path => s.places.contains path.text then return report
  else settle clock arguments (← s.load report.asked)

/-- Shows an entry of the log, if its level is wanted. -/
def showEvent (level : LogLevel) : Event → IO Unit
  | .error message => IO.eprintln s!"ERROR {message}"
  | .info message => do
    if level ≠ .error ∧ level ≠ .warn then IO.eprintln s!" INFO {message}"

/-- Writes a file. -/
def writeFile (path : Path) (bytes : ByteArray) : IO (Option FileError) := do
  match ← Snapshot.attempt path (IO.FS.writeBinFile path.text bytes) with
  | .ok _ => return none
  | .error e => return some e

/-- Runs the program, with its failure if it has one. -/
def runProgram (arguments : Arguments) : IO (Option Failure) := do
  let clock := (← Std.Time.Timestamp.now).toSecondsSinceUnixEpoch.val
  let report ← settle clock arguments (← (Snapshot.mk ∅ ∅).load (firstPaths arguments))
  report.log.forM (showEvent arguments.logLevel)
  match report.result with
  | .error failure => return some failure
  | .ok product =>
    product.listing.forM IO.println
    Program.writeAll (showEvent arguments.logLevel) writeFile product.outputs

/-- How the program is called. -/
def usage : String :=
  "usage: asm6502 [-o NAME] [--out-dir DIR] [-c FILE] [-D NAME=NUMBER]... [-I DIR]... " ++
    "[--cpu N] [-v] [-l LEVEL] SOURCE"

end Asm6502

/-- The command line. -/
def main (arguments : List String) : IO UInt32 := do
  match Asm6502.Arguments.read? arguments with
  | none =>
    IO.eprintln Asm6502.usage
    return 2
  | some arguments =>
    match ← Asm6502.runProgram arguments with
    | none => return 0
    | some failure =>
      IO.eprintln s!"ERROR {failure.message}"
      return 1
