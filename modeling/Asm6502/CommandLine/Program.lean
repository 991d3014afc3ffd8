/-
# The program behind the command line

The source is found, the settings are read, and the source is assembled. What
the arguments say wins over the settings. What is printed and what is wrong
goes to the log. Without errors, the symbols are listed if asked for, and each
saved part of memory is written to a file.

Key definitions: `Event`, `Failure`, `Product`, `Program.report`,
`Program.writeAll`.
-/
import Asm6502.Assembly.Query
import Asm6502.CommandLine.Arguments
import Asm6502.Files.Disk
import Asm6502.Settings

namespace Asm6502

/-- An entry of the log. -/
inductive Event
  | info (message : String)
  | error (message : String)
deriving DecidableEq, Repr, Inhabited

/-- Why the program fails. -/
inductive Failure
  | noSource (error : FileError)
  | settingsUnreadable (path : Path) (error : FileError)
  | settingsInvalid (path : Path)
  | unsupportedCpu (cpu : UInt8)
  | assembly (error : AssembleError)
  /-- Errors were reported. -/
  | errors
  | unwritable (path : Path) (error : FileError)
deriving DecidableEq, Repr

/-- The wording of a failure. What is wrong with settings is not told. -/
def Failure.message : Failure → String
  | .noSource error => "cant open file: " ++ error.message
  | .settingsUnreadable path .notText =>
    "cant read " ++ path.text ++ ": stream did not contain valid UTF-8"
  | .settingsUnreadable path error => "cant read " ++ path.text ++ ": " ++ error.message
  | .settingsInvalid path => "invalid " ++ path.text ++ ": "
  | .unsupportedCpu cpu => "unsupported cpu: " ++ toString cpu.toNat
  | .assembly error => error.message
  | .errors => "assembly failed"
  | .unwritable path error => "cant write " ++ path.text ++ ": " ++ error.message

/-- A file to be written. -/
structure Output where
  path : Path
  save : Save
  bytes : List UInt8
deriving Repr, Inhabited

/-- What a run without errors leads to. -/
structure Product where
  /-- Lines for the standard output. -/
  listing : List String
  outputs : List Output
deriving Repr, Inhabited

namespace Program

/-- Reads the settings at a path. -/
def readSettings (disk : Disk) (path : Path) : Except Failure Settings := do
  match disk.read path >>= Library.textOf with
  | .error e => throw (.settingsUnreadable path e)
  | .ok text =>
    match Settings.read text with
    | .error _ => throw (.settingsInvalid path)
    | .ok settings => return settings

/-- The settings file beside a source. -/
def settingsBeside? (source : Path) : Option Path :=
  source.parent?.map (·.join Settings.fileName)

/-- The settings that the arguments name, or those beside the source if there
are any. -/
def findSettings (disk : Disk) (arguments : Arguments) : Except Failure Settings :=
  match arguments.config with
  | some path => readSettings disk path
  | none =>
    match settingsBeside? arguments.source with
    | some path => if disk.isFile path then readSettings disk path else .ok {}
    | none => .ok {}

/-- Symbols with one more, which replaces an earlier one of its name. -/
def addDefine (defines : List (String × Float)) (define : String × Float) :
    List (String × Float) :=
  defines.filter (·.1 != define.1) ++ [define]

/-- The options of a run. -/
def options (arguments : Arguments) (settings : Settings) : Options where
  defines := arguments.defines.foldl addDefine settings.defines
  cpu := (arguments.cpu.or settings.cpu).getD 0
  defaultOutput := arguments.output.or settings.output

/-- The directories to search. -/
def searchPaths (arguments : Arguments) (settings : Settings) : List Path :=
  arguments.searchPaths ++ settings.searchPaths.map Path.mk

/-- The line that lists a symbol. -/
def listingLine (name : String) (symbol : Symbol) : String :=
  let base := baseName name
  if base = name then name ++ " = " ++ symbol.value.render
  else base ++ " = " ++ symbol.value.render ++ " (" ++ name ++ ")"

/-- `n` as an address of at least four digits. -/
def address (n : Nat) : String :=
  let digits := Number.hexadecimal n
  "&" ++ String.ofList (List.replicate (4 - digits.length) '0') ++ digits

/-- The log entries of an assembly. -/
def events (a : Assembly) : List Event :=
  a.run.printed.toList.map Event.info ++
    a.diagnostics.flatMap fun (path, ds) => ds.map fun d => .error (path.text ++ ":" ++ d.render)

/-- What an assembly without errors leads to. -/
def productOf (arguments : Arguments) (a : Assembly) : Product where
  listing :=
    if arguments.showSymbols then
      a.run.symbols.toList.map fun (name, symbol) => listingLine name symbol
    else []
  outputs := a.run.saves.toList.map fun save =>
    ⟨arguments.outDir.join save.name, save, a.savedBytes save⟩

/-- How a run is set up: its source, its options and the directories to
search. -/
structure Setup where
  source : Path
  options : Options
  searchPaths : List Path
deriving Repr, Inhabited

/-- Sets up the run. -/
def prepare (disk : Disk) (arguments : Arguments) : Except Failure Setup := do
  let source ←
    match disk.canonical arguments.source with
    | .ok path => pure path
    | .error e => throw (.noSource e)
  let settings ← findSettings disk arguments
  let options := options arguments settings
  if options.cpu > 1 then throw (.unsupportedCpu options.cpu)
  return ⟨source, options, searchPaths arguments settings⟩

/-- What the program comes to before any file is written. -/
structure Report where
  log : List Event
  /-- The paths that were asked for while assembling. -/
  asked : List Path
  result : Except Failure Product

/-- The paths that a run asked for. -/
def pathsAsked (searchPaths : List Path) (r : Run) : List Path :=
  r.lookups.toList.flatMap fun (origin, name) => Library.candidates searchPaths origin name

/-- The report of an assembly. -/
def reportOf (arguments : Arguments) (searchPaths : List Path) (a : Assembly) : Report where
  log := events a
  asked := pathsAsked searchPaths a.run
  result := if a.hasErrors then .error .errors else .ok (productOf arguments a)

/-- Runs the program up to the writing of files. -/
def report (disk : Disk) (clock : Int) (arguments : Arguments) : Report :=
  match prepare disk arguments with
  | .error e => ⟨[], [], .error e⟩
  | .ok ⟨source, options, searchPaths⟩ =>
    match (assemble (.ofDisk disk searchPaths) source options clock .never 0).result with
    | .error e => ⟨[], [], .error (.assembly e)⟩
    | .ok a => reportOf arguments searchPaths a

/-- The log entry for a file to be written. -/
def savingEvent (o : Output) : Event :=
  .info ("saving " ++ o.path.text ++ " " ++ address o.save.start ++ "-" ++ address o.save.stop ++
    " exec " ++ address o.save.exec)

/-- Writes files one after the other, each after its log entry, up to the first
that cannot be written. -/
def writeAll [Monad m] (log : Event → m Unit) (write : Path → ByteArray → m (Option FileError)) :
    List Output → m (Option Failure)
  | [] => return none
  | o :: outputs => do
    log (savingEvent o)
    match ← write o.path ⟨o.bytes.toArray⟩ with
    | some e => return some (.unwritable o.path e)
    | none => writeAll log write outputs

end Program

end Asm6502
