/-
# Macro calls and `ASM`

A macro call opens a scope, binds its arguments there to the parameters one
after the other, and runs the lines of the macro. In the second pass the
binding of the first is taken away before an argument is evaluated, so that
the argument does not see it.

`ASM` executes a text as if it stood on the line.

Key definitions: `LineM.macroCall`, `LineM.bindArguments`, `LineM.openText`,
`LineM.asm`.
-/
import Asm6502.Statement.External

namespace Asm6502.LineM

/-- Binds the parameters of a macro to the arguments at the cursor. -/
def bindEach (first : Bool) : List String → LineM Unit
  | [] => return
  | parameter :: parameters => do
    if ← atEnd then fail .parameterCount (← column)
    if !first then expectComma
    let full := fullName parameter (← getWalk).frames
    if ← isSecondPass then modifySymbols (·.erase full)
    let e ← evaluate
    pushPart e.node
    if e.known then modifySymbols (·.add full e.value false none)
    bindEach false parameters

/-- Binds all parameters of a macro. The statement ends after the last
argument. -/
def bindArguments (parameters : List String) : LineM Unit := do
  bindEach true parameters
  if !(← atEnd) then
    if (← peek) == some ',' then fail .parameterCount (← column)
    else fail .invalidCharacter (← column)

/-- Runs the lines of a macro as called from a column of the line. -/
def expand (m : Macro) (start : Nat) : LineM Unit := do
  let env ← read
  let walk ← getWalk
  let (site, code) := (← getRun).code.pushCallSite (walk.buffer.origin env.index start)
  modifyCode fun _ => code
  let buffer := .ofText m.definedAt.file m.body (m.definedAt.line + 1) (some site)
  runBuffer env.allowance buffer walk.frames

/-- Calls a macro whose name starts at a column and has been read. -/
def macroCall (m : Macro) (start : Nat) : LineM Unit := do
  if ← isSecondPass then
    let position ← position start
    modifyRun fun r => { r with macros := r.macros.addReference m.name position }
  let spot ← spot start
  changeWalk start fun w r => w.openScope r .expansion spot
  let call := do
    bindArguments m.parameters
    expand m start
  call.andThen fun s =>
    { s with
      walk := s.walk.closeExpansion
      nodes := s.nodes.push (.mk .macroCall m.name start s.parts.toList) }

/-- Executes a text on the line at hand. Any problem is one of the text as a
whole, at a column of the line. -/
def inline (text : String) (column : Nat) : LineM Node := fun env s =>
  match env.runText text s with
  | .ok node s => .ok node s
  | .error (.problem p) s => .error (.problem ⟨p.fault, column⟩) s
  | .error .exhausted s => .error .exhausted s

/-- Reads the text of an `ASM`, with its column, and goes inside it. -/
def openText : LineM (String × Nat) := do
  let argument ← LineM.text
  let text ← argument.take .any
  expectEnd
  if (← read).allowance.evals = 0 then fail .tooManyEvals argument.column
  note .inlined
  modifyRun fun r => { r with depth.evals := r.depth.evals + 1 }
  return (text, argument.column)

/-- `ASM` executes a text. -/
def asm : LineM Unit := do
  let (text, column) ← openText
  let node ← (inline text column).andThen fun s =>
    { s with run.depth.evals := s.run.depth.evals - 1 }
  pushPart node

end Asm6502.LineM
