/-
# Directives that open and close blocks

Braces, loops, conditionals and macro definitions.

Key definitions: `LineM.openBrace`, `LineM.closeBrace`, `LineM.forLoop`,
`LineM.next`, `LineM.ifBlock`, `LineM.elifBlock`, `LineM.elseBlock`,
`LineM.endif`, `LineM.macroHeader`, `LineM.endMacro`.
-/
import Asm6502.Statement.Argument

namespace Asm6502.LineM

/-- An opening brace opens a scope. -/
def openBrace (start : Nat) : LineM Unit := do
  let spot ← spot start
  changeWalk start fun w r => w.openScope r .brace spot

/-- A closing brace closes the innermost scope. -/
def closeBrace (start : Nat) : LineM Unit := do
  setWalk (← ofFault start (← getWalk).closeBrace)

/-- `FOR` opens a loop. The next iteration starts right after its arguments. -/
def forLoop (start : Nat) : LineM Unit := do
  skipBlanks
  let nameColumn ← column
  let name ← expectName
  expectComma
  let first ← (← number).take .any
  let limit ← (← number).take .any
  let step ← (← number).take (Rule.any.orElse 1)
  expectEnd
  modify fun s => { s with parts := #[.leaf .symbol name nameColumn] ++ s.parts }
  let resume ← spot (← column)
  let spot ← spot start
  changeWalk start fun w r => w.startLoop r ⟨name, first, limit, step, resume⟩ spot

/-- `NEXT` ends an iteration of the innermost loop. -/
def next (start : Nat) : LineM Unit := do
  expectEnd
  changeWalk start Walk.stepLoop

/-- Changes the open conditionals, or stops at a fault. -/
def changeConditionals (column : Nat)
    (f : List Conditional → Except Fault (List Conditional)) : LineM Unit := do
  let walk ← getWalk
  let conditionals ← ofFault column (f walk.conditionals)
  setWalk { walk with conditionals }

/-- Reads the condition of an `IF` or `ELIF`. -/
def condition : LineM Unit := do
  skipBlanks
  let start ← column
  let e ← evaluate
  let n ← ofFault start e.value.number
  expectEnd
  changeConditionals start fun frames => .ok (Conditional.setCondition (n != 0) frames)
  pushPart e.node

/-- `IF` opens a conditional. Its condition is read only where statements are
executed, and counts as false if it cannot be read. -/
def ifBlock (start : Nat) : LineM Unit := do
  let live := (← getWalk).isLive
  let spot ← spot start
  changeConditionals start fun frames =>
    (Conditional.openIf frames spot).map (Conditional.setCondition false)
  if live then condition else skipStatement

/-- `ELIF` starts another branch. Its condition is read only if no branch before
it was executed. -/
def elifBlock (start : Nat) : LineM Unit := do
  let walk ← getWalk
  let (wanted, conditionals) ← ofFault start (Conditional.startElif walk.conditionals)
  setWalk { walk with conditionals }
  if wanted && (← getWalk).isOuterLive then condition else skipStatement

/-- `ELSE` starts the last branch. -/
def elseBlock (start : Nat) : LineM Unit := do
  expectEnd
  changeConditionals start Conditional.startElse

/-- `ENDIF` closes a conditional. -/
def endif (start : Nat) : LineM Unit := do
  expectEnd
  changeConditionals start Conditional.close

/-- The parameters of a macro, those in `before` first. The comma before the
first is optional. -/
def macroParameters (before : List String) : Nat → LineM (List String)
  | 0 => return before
  | steps + 1 => do
    if ← atEnd then return before
    if !before.isEmpty || (← peek) == some ',' then expectComma
    skipBlanks
    let start ← column
    let name ← expectName
    pushPart (.leaf .symbol name start)
    macroParameters (before ++ [name]) steps

/-- `MACRO` opens the definition of a macro. Its lines are captured in the first
pass, where statements are executed and the name is new. -/
def macroHeader (start : Nat) : LineM Unit := do
  skipBlanks
  let nameColumn ← column
  let name ← expectName
  pushPart (.leaf .symbol name nameColumn)
  let parameters ← macroParameters [] ((← getCursor).rest.length + 1)
  let walk ← getWalk
  let run ← getRun
  let defines := walk.isLive && run.pass == .first
  let duplicate := defines && run.macros.contains name
  let position ← position nameColumn
  let definition := { Macro.ofHeader name position with parameters }
  let capture := if defines && !duplicate then some definition else none
  setWalk (← ofFault start (walk.startMacro capture (← spot start)))
  if duplicate then fail .duplicateMacroName nameColumn

/-- `ENDMACRO` closes the definition of a macro. -/
def endMacro (start : Nat) : LineM Unit := do
  expectEnd
  let (definition, walk) ← ofFault start (← getWalk).endMacro
  setWalk walk
  match definition with
  | some m => modifyRun fun r => { r with macros := r.macros.add m }
  | none => return

end Asm6502.LineM
