/-
# Assembling a document

A walk executes the lines of its buffer one after the other. A problem on a
line is reported and the walk goes on with the next one. In the second pass the
tree of a line is kept if the line is entered at its start and every open loop
is in its first iteration. When the lines are used up, what is still open is
reported.

A loop may go on for ever, so a walk is bounded: `walk n` gives up, with none,
after `n` lines in a row, those of a nested walk counted on top of those before
it.

An assembly is the state of a run after its second pass.

Key definitions: `Walk.stepLine`, `walk`, `executeLine`, `assemble`, `Assembly`.
-/
import Asm6502.Line

namespace Asm6502

/-- How deep included files may be nested. -/
def maxIncludes : Nat := 64

/-- How deep texts of `EVAL` and `ASM` may be nested. -/
def maxEvals : Nat := 32

/-- The allowance at the outermost level. -/
def fullAllowance : Allowance := ⟨maxIncludes, maxEvals⟩

namespace Walk

/-- Whether the tree of the next line is to be kept. -/
def recordsTree (w : Walk) (r : Run) : Bool :=
  r.pass == .second && w.resumeColumn == 0 && w.frames.all Frame.isFirstIteration

/-- The walk as the line at `index` is entered. -/
def enter (w : Walk) (index : Nat) : Walk :=
  { w with next := index + 1, resumeColumn := 0, rewound := false }

/-- What follows the execution of a line: the problem is reported, the tree kept
and the line captured. -/
def leave (index : Nat) (line : String) (record : Bool) (problem : Option Problem)
    (s : LineState) : Walk × Run :=
  let w := s.walk
  let r :=
    match problem with
    | some p => w.reportAt s.run ⟨index, p.column⟩ p.fault
    | none => s.run
  let r :=
    if record then r.recordTree w.buffer.file (w.buffer.firstLine + index) (s.tree line) else r
  (w.captureLine index line, r)

/-- Executes a line that is the next of the walk, none beyond the bound on
lines. -/
def stepLine (library : Library) (runBuffer : BufferRunner) (allowance : Allowance) (w : Walk)
    (r : Run) (line : String) : Option (Walk × Run) :=
  let index := w.next
  let record := w.recordsTree r
  let cursor := Cursor.ofColumn line w.resumeColumn
  let execute := runLine library runBuffer allowance.includes index allowance.evals
  match execute ⟨cursor, #[], #[], w.enter index, r⟩ with
  | .ok _ s => some (leave index line record none s)
  | .error (.problem p) s => some (leave index line record (some p) s)
  | .error .exhausted _ => none

end Walk

/-- Walks on to the end of the buffer, or until the run is overtaken. None if
that takes more lines than the bound. -/
def walk (library : Library) : Nat → Allowance → Walk → Run → Option (Walk × Run)
  | 0, _, _, _ => none
  | steps + 1, allowance, w, r =>
    match w.buffer.lines[w.next]? with
    | none => some (w.finish r)
    | some line =>
      if r.isCancelled then some (w, r)
      else
        let runBuffer := fun allowance buffer frames r =>
          (walk library steps allowance (.start buffer frames) r).map (·.2)
        match w.stepLine library runBuffer allowance r line with
        | none => none
        | some (w, r) => walk library steps allowance w r

/-- Runs a buffer inside the scopes given, within a bound on lines. -/
def runBufferWithin (library : Library) (bound : Nat) : BufferRunner :=
  fun allowance buffer frames r =>
    (walk library bound allowance (.start buffer frames) r).map (·.2)

/-- Executes the statements of the line at hand, within a bound on the lines
that they bring in. -/
def executeLine (library : Library) (bound : Nat) (allowance : Allowance) (index : Nat) :
    EStateM Stop LineState Unit :=
  runLine library (runBufferWithin library bound) allowance.includes index allowance.evals

/-- The bound on lines that counts as never reached. -/
def lineBound : Nat := 1000000000000000000

/-- Why a document is not assembled. -/
inductive AssembleError
  | cancelled
  | unreadable (path : Path) (error : FileError)
  /-- The bound on lines is reached. -/
  | exhausted
deriving DecidableEq, Repr

/-- The wording of an error. -/
def AssembleError.message : AssembleError → String
  | .cancelled => "assembly cancelled"
  | .unreadable path error => "cant read " ++ path.text ++ ": " ++ error.message
  | .exhausted => "assembly does not end"

/-- The finished state of a run. -/
structure Assembly where
  run : Run
deriving Inhabited

/-- What assembling a document comes to: the assembly or an error, and the
generation that the session has reached. -/
structure Outcome where
  result : Except AssembleError Assembly
  generation : Nat

/-- Runs one pass over the text of the main file. -/
def runPass (library : Library) (bound : Nat) (file : Nat) (text : String) (pass : Pass)
    (r : Run) : Option Run :=
  runBufferWithin library bound fullAllowance (.ofText file text 0 none) [] (r.beginPass pass)

/-- Runs both passes over the text of the main file. -/
def runPasses (library : Library) (bound : Nat) (file : Nat) (text : String) (r : Run) :
    Outcome :=
  match runPass library bound file text .first r with
  | none => ⟨.error .exhausted, r.generation⟩
  | some r =>
    if r.isCancelled then ⟨.error .cancelled, r.generation⟩
    else
      match runPass library bound file text .second r with
      | none => ⟨.error .exhausted, r.generation⟩
      | some r =>
        if r.isCancelled then ⟨.error .cancelled, r.generation⟩
        else ⟨.ok ⟨r⟩, r.generation⟩

/-- Assembles the document at a path within a bound on lines, for a ticket of a
session that has reached a generation. -/
def assembleWithin (bound : Nat) (library : Library) (path : Path) (options : Options)
    (clock : Int) (ticket : Ticket) (generation : Nat) : Outcome :=
  let r := (Run.start options clock ticket generation).noteRead (library.interruptions · path)
  match library.readText path with
  | .error error => ⟨.error (.unreadable path error), r.generation⟩
  | .ok text =>
    let (file, r) := r.addFile path
    runPasses library bound file text r

/-- Assembles the document at a path. -/
def assemble : Library → Path → Options → Int → Ticket → Nat → Outcome :=
  assembleWithin lineBound

end Asm6502
