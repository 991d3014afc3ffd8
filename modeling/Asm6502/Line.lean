/-
# Executing a line

A line is a sequence of statements. Each one is an assignment, a directive, an
instruction or a macro call, tried in this order. Where an open conditional is
false, everything but the directives that structure the text is skipped. A
loop that goes on ends the line, because the walk has moved back.

The text of an `ASM` is a line of its own on the same walk, with one `EVAL` or
`ASM` less to nest.

Key definitions: `LineM.directive`, `LineM.statement`, `LineM.statements`,
`runLine`, `LineState.tree`.
-/
import Asm6502.Statement.Block
import Asm6502.Statement.Data
import Asm6502.Statement.Definition
import Asm6502.Statement.Directive
import Asm6502.Statement.Expansion
import Asm6502.Statement.Operand
import Asm6502.Statement.Placement

namespace Asm6502

namespace LineM

/-- Executes a directive that starts at a column and has been read. -/
def perform (d : Directive) (start : Nat) : LineM Unit :=
  match d with
  | .label => label start
  | .comment => do setCursor (← getCursor).skipLine
  | .separator => return
  | .openBrace => openBrace start
  | .closeBrace => closeBrace start
  | .print => print
  | .cpu => cpu
  | .org => org
  | .includeFile => includeFile start
  | .includeBytes => includeBytes start
  | .bytes | .strings => equ 1
  | .words => equ 2
  | .doubleWords => equ 4
  | .assert => assert
  | .save => save start
  | .forLoop => forLoop start
  | .next => next start
  | .ifBlock => ifBlock start
  | .elifBlock => elifBlock start
  | .elseBlock => elseBlock start
  | .endif => endif start
  | .align => align start
  | .skipTo => skipTo start
  | .skip => skip start
  | .guardAddress => guardAddress
  | .clear => clear
  | .mapCharacters => mapCharacters
  | .putFile => putFile .putFile
  | .putText => putFile .putText
  | .putBasic => putBasic
  | .macroHeader => macroHeader start
  | .endMacro => endMacro start
  | .error => error start
  | .copyBlock => copyBlock start
  | .randomize => randomize
  | .asm => asm

/-- Whether a directive has a tree as a command. Labels have one of their own,
signs have none. -/
def isCommand : Directive → Bool
  | .label | .comment | .separator | .openBrace | .closeBrace => false
  | _ => true

/-- Executes the directive at the cursor, which is spelled as given. -/
def directive (spelling : String) (d : Directive) : LineM Unit := do
  let start ← column
  advance spelling.length
  perform d start
  if isCommand d then pushNode .command spelling start

/-- Executes the instruction or macro call at the cursor. -/
def operation : LineM Unit := do
  let cursor ← getCursor
  let start := cursor.column
  let run ← getRun
  match Mnemonic.find? cursor.rest run.code.cpu with
  | some m =>
    advance 3
    instruction m start
  | none =>
    if !cursor.atName then fail .unrecognisedToken start
    let (name, after) := cursor.name
    setCursor after
    match run.macros.get? name with
    | some m => macroCall m start
    | none => fail .macroNotFound start

/-- Executes or skips the statement at the cursor. False if the rest of the line
is not to be executed. -/
def statement : LineM Bool := do
  modify fun s => { s with parts := #[] }
  let cursor ← getCursor
  let live := (← getWalk).isLive
  if cursor.atAssignment then
    if live then assignment else skipStatement
    return true
  else
    match Directive.find? cursor.rest with
    | some (spelling, d) =>
      if live || d.isStructural then
        directive spelling d
        return !(← getWalk).rewound
      else
        skipStatement
        return true
    | none =>
      if live then operation else skipStatement
      return true

/-- Executes the statements from the cursor on. A statement takes at least one
character, so a number of steps as large as the rest of the line reaches its
end. -/
def statementsFrom : Nat → LineM Unit
  | 0 => return
  | steps + 1 => do
    skipBlanks
    if !(← getCursor).rest.isEmpty then
      if ← statement then statementsFrom steps

/-- Executes the statements from the cursor on. -/
def statements : LineM Unit := do
  statementsFrom ((← getCursor).rest.length + 1)

end LineM

/-- The tree of a line. -/
def LineState.tree (s : LineState) (text : String) : Node := .mk .line text 0 s.nodes.toList

/-- Executes a text with `statements` on the walk and run of a line, and gives
its tree. What the line itself has reached stays as it is. -/
def runTextWith (statements : EStateM Stop LineState Unit) (text : String) :
    EStateM Stop LineState Node := fun s =>
  match statements ⟨.ofText text, #[], #[], s.walk, s.run⟩ with
  | .ok _ after => .ok (after.tree text) { s with walk := after.walk, run := after.run }
  | .error stop after => .error stop { s with walk := after.walk, run := after.run }

/-- How a buffer is run, none beyond the bound on lines. -/
abbrev BufferRunner := Allowance → Buffer → List Frame → Run → Option Run

/-- Executes the statements of the line at hand, where texts of `EVAL` and `ASM`
may be nested as deep as the last argument. -/
def runLine (library : Library) (runBuffer : BufferRunner) (includes index : Nat) :
    Nat → EStateM Stop LineState Unit
  | 0 =>
    LineM.statements
      { library, allowance := ⟨includes, 0⟩, index, runBuffer
        runText := fun _ => throw (.problem ⟨.tooManyEvals, 0⟩) }
  | evals + 1 =>
    LineM.statements
      { library, allowance := ⟨includes, evals + 1⟩, index, runBuffer
        runText := runTextWith (runLine library runBuffer includes index evals) }

end Asm6502
