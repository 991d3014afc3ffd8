/-
# Executing the statements of a line

A statement is read and executed at once, from left to right. Reading moves a
cursor along the line; executing changes the walk and the run. A problem ends
the line, but what was done before it stays done, and so do the trees of the
statements before it.

A statement may bring in further lines, of a macro or of an included file, and
further text, of an `ASM`. How these are run is part of the `Setting`, so that
a statement by itself is no recursion. Running them may go beyond the bound on
the number of lines; then everything stops.

Key definitions: `Setting`, `LineState`, `LineM`, `LineM.evaluate`,
`LineM.write`, `LineM.expectEnd`, `LineM.eachSeparated`.
-/
import Asm6502.Expr.Eval
import Asm6502.Files.Library
import Asm6502.Walk

namespace Asm6502

/-- Why a line stops. -/
inductive Stop
  | problem (p : Problem)
  /-- The bound on the number of lines is reached. -/
  | exhausted
deriving DecidableEq, Repr

/-- How much deeper texts may be nested: included files, and texts of `EVAL` and
`ASM`. -/
structure Allowance where
  includes : Nat
  evals : Nat
deriving DecidableEq, Repr, Inhabited

/-- The line at hand while it is executed. -/
structure LineState where
  cursor : Cursor
  /-- The trees of the statements so far. -/
  nodes : Array Node
  /-- The trees inside the statement at hand. -/
  parts : Array Node
  walk : Walk
  run : Run
deriving Inhabited

/-- What stays the same while a line is executed. -/
structure Setting where
  library : Library
  allowance : Allowance
  /-- The index of the line in its buffer. -/
  index : Nat
  /-- Runs a buffer inside the scopes given, none beyond the bound on lines. -/
  runBuffer : Allowance → Buffer → List Frame → Run → Option Run
  /-- Executes the text of an `ASM` and gives its tree. -/
  runText : String → EStateM Stop LineState Node

/-- A step in the execution of a line. -/
abbrev LineM := ReaderT Setting (EStateM Stop LineState)

namespace LineM

/-- Stops at a fault. -/
def fail (fault : Fault) (column : Nat) : LineM α := throw (.problem ⟨fault, column⟩)

/-- Carries on with a result or stops at its fault. -/
def ofFault (column : Nat) : Except Fault α → LineM α
  | .ok a => pure a
  | .error fault => fail fault column

/-- The place reached. -/
def getCursor : LineM Cursor := return (← get).cursor

/-- Goes to a place. -/
def setCursor (cursor : Cursor) : LineM Unit := modify fun s => { s with cursor }

/-- The byte column reached. -/
def column : LineM Nat := return (← getCursor).column

/-- The next character, if any is left. -/
def peek : LineM (Option Char) := return (← getCursor).peek

/-- Moves past `n` characters. -/
def advance (n : Nat) : LineM Unit := modify fun s => { s with cursor := s.cursor.skip n }

/-- Moves past blanks. -/
def skipBlanks : LineM Unit := modify fun s => { s with cursor := s.cursor.skipBlanks }

/-- Moves to the end of the statement without executing it. -/
def skipStatement : LineM Unit := modify fun s => { s with cursor := s.cursor.skipStatement }

/-- Moves past blanks; says whether the statement ends there. -/
def atEnd : LineM Bool := do
  skipBlanks
  return (← getCursor).atStatementEnd

/-- Moves past blanks to the end of the statement, which must come. -/
def expectEnd : LineM Unit := do
  skipBlanks
  match Expr.endProblem? (← getCursor) with
  | some problem => throw (.problem problem)
  | none => return

/-- Moves past blanks and the comma that must come. -/
def expectComma : LineM Unit := do
  skipBlanks
  if (← peek) == some ',' then advance 1 else fail .missingComma (← column)

/-- Moves past blanks and the name that must come. -/
def expectName : LineM String := do
  skipBlanks
  let cursor ← getCursor
  if !cursor.atName then fail .invalidSymbolName cursor.column
  let (name, after) := cursor.name
  setCursor after
  return name

/-- The walk. -/
def getWalk : LineM Walk := return (← get).walk

/-- The run. -/
def getRun : LineM Run := return (← get).run

/-- Changes the walk. -/
def setWalk (walk : Walk) : LineM Unit := modify fun s => { s with walk }

/-- Changes the run. -/
def modifyRun (f : Run → Run) : LineM Unit := modify fun s => { s with run := f s.run }

/-- Changes the object code. -/
def modifyCode (f : ObjectCode → ObjectCode) : LineM Unit :=
  modifyRun fun r => { r with code := f r.code }

/-- Changes the symbols. -/
def modifySymbols (f : SymbolTable → SymbolTable) : LineM Unit :=
  modifyRun fun r => { r with symbols := f r.symbols }

/-- Adds to the history. -/
def note (what : Note) : LineM Unit :=
  modifyRun fun r => { r with history := what :: r.history }

/-- Whether this is the second pass. -/
def isSecondPass : LineM Bool := return (← getRun).pass == .second

/-- The place in the file of a column of the line. -/
def position (column : Nat) : LineM Position :=
  return (← getWalk).buffer.position (← read).index column

/-- The place in the buffer of a column of the line. -/
def spot (column : Nat) : LineM Spot := return ⟨(← read).index, column⟩

/-- Adds a tree to those inside the statement. -/
def pushPart (node : Node) : LineM Unit := modify fun s => { s with parts := s.parts.push node }

/-- Adds the tree of a statement, made of what is inside it. -/
def pushNode (kind : NodeKind) (text : String) (column : Nat) : LineM Unit :=
  modify fun s => { s with nodes := s.nodes.push (.mk kind text column s.parts.toList) }

/-- Changes walk and run together, or stops at a fault. -/
def changeWalk (column : Nat) (f : Walk → Run → Except Fault (Walk × Run)) : LineM Unit := do
  let (walk, run) ← ofFault column (f (← getWalk) (← getRun))
  modify fun s => { s with walk, run }

/-- Does `m`, and then `last` whether `m` stopped or not. -/
def andThen (m : LineM α) (last : LineState → LineState) : LineM α := fun env s =>
  match m env s with
  | .ok a s => .ok a (last s)
  | .error stop s => .error stop (last s)

/-- What the evaluation of an expression on this line looks at. -/
def context (env : Setting) (s : LineState) : Expr.Context where
  pass := s.run.pass
  pc := s.run.code.pc
  clock := s.run.clock
  frames := s.walk.frames
  file := s.walk.buffer.file
  line := s.walk.buffer.firstLine + env.index

/-- Evaluates the expression at the cursor and moves to its end. -/
def evaluate : LineM Expr.Evaluated := fun env s =>
  let state := ⟨s.run.symbols, s.run.random, s.run.history⟩
  match Expr.evaluate (context env s) env.allowance.evals s.cursor state with
  | .ok e state =>
    let run :=
      { s.run with
        symbols := state.symbols
        random := state.random
        history := state.history }
    .ok e { s with run, cursor := e.stop }
  | .error problem state =>
    let run :=
      { s.run with
        symbols := state.symbols
        random := state.random
        history := state.history }
    .error (.problem problem) { s with run }

/-- Writes bytes to the object code, each with whether it is known, as coming
from a column of the line. -/
def write (bytes : List (UInt8 × Bool)) (column : Nat) : LineM Unit := fun env s =>
  let origin := s.walk.buffer.origin env.index column
  let (fault, code) := s.run.code.write bytes origin
  let s := { s with run := { s.run with code } }
  match fault with
  | none => .ok () s
  | some fault => .error (.problem ⟨.memory fault, column⟩) s

/-- Writes bytes one by one. -/
def writeEach (known : Bool) (column : Nat) : List UInt8 → LineM Unit
  | [] => return
  | byte :: bytes => do
    write [(byte, known)] column
    writeEach known column bytes

/-- Reads items separated by commas up to the end of the statement, at least
one. An item takes at least one character, so a number of steps as large as the
rest of the line reaches its end. -/
def eachSeparated (item : LineM Unit) : Nat → LineM Unit
  | 0 => item
  | steps + 1 => do
    item
    if !(← atEnd) then
      expectComma
      eachSeparated item steps

/-- Reads items separated by commas up to the end of the statement. -/
def separated (item : LineM Unit) : LineM Unit := do
  eachSeparated item (← getCursor).rest.length

end LineM

end Asm6502
