/-
# The state of a run

A run assembles one document in two passes. Symbols, macros, files,
diagnostics and the history live for the whole run; the object code, the
trees, the saves, the links and the printed lines are those of the current
pass.

A run is overtaken when the generation it belongs to is no longer the current
one.

Key definitions: `Options`, `Ticket`, `Depth`, `Run`, `Run.start`,
`Run.beginPass`, `Run.isCancelled`.
-/
import Asm6502.Diagnostic
import Asm6502.Files.Path
import Asm6502.History
import Asm6502.Macro
import Asm6502.Memory.ObjectCode
import Asm6502.Node
import Asm6502.Pass
import Asm6502.Random
import Asm6502.SymbolTable

namespace Asm6502

/-- What stays fixed for a whole run. -/
structure Options where
  /-- Symbols that are defined before the source is read. -/
  defines : List (String × Float)
  cpu : UInt8
  /-- The file name of a `SAVE` that gives none. -/
  defaultOutput : Option String
deriving Repr, Inhabited

/-- A part of memory to be written to a file. -/
structure Save where
  name : String
  start : Nat
  stop : Nat
  exec : Nat
  reload : Nat
  position : Position
deriving DecidableEq, Repr, Inhabited

/-- The statement that names a file. -/
inductive LinkKind
  | source
  | binary
  | putFile
  | putText
  | putBasic
deriving DecidableEq, Repr, Inhabited

/-- A file named by a statement, with the place and length of its quoted name. -/
structure Link where
  kind : LinkKind
  target : Path
  position : Position
  length : Nat
deriving DecidableEq, Repr, Inhabited

/-- What a run is allowed by: nothing can overtake it, or it belongs to a
generation of a session. -/
inductive Ticket
  | never
  | issued (generation : Nat)
deriving DecidableEq, Repr, Inhabited

/-- Whether a ticket is overtaken once the session has reached a generation. -/
def Ticket.isCancelled (ticket : Ticket) (generation : Nat) : Bool :=
  match ticket with
  | .never => false
  | .issued mine => generation != mine

/-- How deep the lines at hand are nested in included files and in texts of
`ASM`. -/
structure Depth where
  includes : Nat
  evals : Nat
deriving DecidableEq, Repr, Inhabited

/-- The state of a run. -/
structure Run where
  options : Options
  ticket : Ticket
  /-- The generation that the session has reached. -/
  generation : Nat
  /-- The number of files read so far. -/
  reads : Nat
  /-- The time in seconds since the start of 1970. -/
  clock : Int
  pass : Pass
  symbols : SymbolTable
  code : ObjectCode
  macros : MacroTable
  random : Random
  /-- The number of the scope opened last in this pass. -/
  lastScope : Nat
  depth : Depth
  /-- The files of the run, each by the path it was first read under. -/
  files : Array Path
  /-- What was reported, with the number of the file, in order. -/
  reports : Array (Nat × Diagnostic)
  /-- The trees of lines, by file and line. -/
  trees : Std.TreeMap Nat (Std.TreeMap Nat Node)
  saves : Array Save
  links : Array Link
  printed : Array String
  /-- The names that were looked up, with the files that mention them. -/
  lookups : Array (Path × String)
  /-- What was noted, latest first. -/
  history : List Note
deriving Inhabited

namespace Run

/-- The symbols that a run starts with. A name defined twice keeps its first
value. -/
def initialSymbols (defines : List (String × Float)) : SymbolTable :=
  defines.foldl (fun t (name, n) => t.add name (.num n) false none) .predefined

/-- A run before its first pass. -/
def start (options : Options) (clock : Int) (ticket : Ticket) (generation : Nat) : Run where
  options
  ticket
  generation
  reads := 0
  clock
  pass := .first
  symbols := initialSymbols options.defines
  code := .empty
  macros := .empty
  random := .ofSeed 0
  lastScope := 0
  depth := ⟨0, 0⟩
  files := #[]
  reports := #[]
  trees := ∅
  saves := #[]
  links := #[]
  printed := #[]
  lookups := #[]
  history := []

/-- A run at the start of a pass. -/
def beginPass (r : Run) (pass : Pass) : Run :=
  { r with
    pass
    lastScope := 0
    depth := ⟨0, 0⟩
    random := .ofSeed 0
    code := r.code.beginPass (pass = .first) r.options.cpu
    symbols := r.symbols.change "CPU" (.ofNat r.options.cpu.toNat)
    trees := ∅
    saves := #[]
    links := #[]
    printed := #[] }

/-- Whether a later run has taken over. -/
def isCancelled (r : Run) : Bool := r.ticket.isCancelled r.generation

/-- Notes the read of a file, and how many runs others start or cancel
meanwhile, given the number of the read. -/
def noteRead (r : Run) (interruptions : Nat → Nat) : Run :=
  { r with reads := r.reads + 1, generation := r.generation + interruptions r.reads }

/-- The number of a file in the run's list, if it is there. -/
def fileIndex? (r : Run) (path : Path) : Option Nat := r.files.findIdx? (·.same path)

/-- The path of a file of the run. -/
def filePath? (r : Run) (file : Nat) : Option Path := r.files[file]?

/-- The number of a file, which is added to the list if need be. -/
def addFile (r : Run) (path : Path) : Nat × Run :=
  match r.fileIndex? path with
  | some file => (file, r)
  | none => (r.files.size, { r with files := r.files.push path })

/-- Adds a diagnostic of a file. -/
def report (r : Run) (file : Nat) (d : Diagnostic) : Run :=
  { r with reports := r.reports.push (file, d) }

/-- Keeps the tree of a line, unless it has one. -/
def recordTree (r : Run) (file line : Nat) (node : Node) : Run :=
  let lines := r.trees.getD file ∅
  { r with trees := r.trees.insert file (lines.insertIfNew line node) }

/-- The tree of a line of a file. -/
def tree? (r : Run) (file line : Nat) : Option Node := r.trees[file]?.bind (·[line]?)

/-- The trees of a file, by line. -/
def treesOf (r : Run) (file : Nat) : List (Nat × Node) := (r.trees.getD file ∅).toList

/-- The diagnostics of a file, in order. -/
def diagnosticsOf (r : Run) (file : Nat) : List Diagnostic :=
  (r.reports.toList.filter (·.1 == file)).map (·.2)

/-- The files with a diagnostic, in the order of their first. -/
def reportedFiles (r : Run) : List Nat := (r.reports.toList.map (·.1)).eraseDups

end Run

end Asm6502
