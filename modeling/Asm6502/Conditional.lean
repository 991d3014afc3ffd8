/-
# Conditional assembly

Each open `IF` has a frame that says whether its current branch is executed,
whether a branch was, and whether `ELSE` came. The definition of a macro opens
a frame as well: its condition is false, so its lines are skipped. A
statement is executed when every condition is true.

Open frames are listed innermost first.

Key definitions: `Conditional`, `Conditional.allTrue`,
`Conditional.setCondition`, `Conditional.startElif`, `Conditional.startElse`,
`Conditional.close`.
-/
import Asm6502.Fault
import Asm6502.Scope

namespace Asm6502

/-- An open `IF` or macro definition. -/
structure Conditional where
  /-- Whether the current branch is executed. -/
  condition : Bool
  /-- Whether a branch was executed, this one included. -/
  passed : Bool
  hadElse : Bool
  isMacro : Bool
  openedAt : Spot
deriving DecidableEq, Repr, Inhabited

/-- The most frames that can be open at once. -/
def maxConditionals : Nat := 256

namespace Conditional

/-- Whether statements are executed. -/
def allTrue (frames : List Conditional) : Bool := frames.all Conditional.condition

/-- Whether everything around the innermost frame is executed. -/
def outerTrue (frames : List Conditional) : Bool := allTrue frames.tail

/-- Opens an `IF`, whose condition is true until it is set. -/
def openIf (frames : List Conditional) (spot : Spot) : Except Fault (List Conditional) :=
  if frames.length ≥ maxConditionals then .error .tooManyIfs
  else .ok (⟨true, false, false, false, spot⟩ :: frames)

/-- Opens the definition of a macro. -/
def openMacro (frames : List Conditional) (spot : Spot) : Except Fault (List Conditional) :=
  if frames.length ≥ maxConditionals then .error .tooManyIfs
  else .ok (⟨false, false, false, true, spot⟩ :: frames)

/-- Sets the condition of the innermost frame. -/
def setCondition (condition : Bool) : List Conditional → List Conditional
  | [] => []
  | f :: frames => { f with condition, passed := f.passed || condition } :: frames

/-- Starts an `ELIF`, with whether its condition still matters. -/
def startElif : List Conditional → Except Fault (Bool × List Conditional)
  | [] => .error .elifWithoutIf
  | f :: frames =>
    if f.isMacro then .error .elifWithoutIf
    else if f.hadElse then .error .elifAfterElse
    else if f.passed then .ok (false, { f with condition := false } :: frames)
    else .ok (true, f :: frames)

/-- Starts an `ELSE`, which is executed if no branch was. -/
def startElse : List Conditional → Except Fault (List Conditional)
  | [] => .error .elseWithoutIf
  | f :: frames =>
    if f.isMacro then .error .elseWithoutIf
    else if f.hadElse then .error .elseAfterElse
    else .ok ({ f with hadElse := true, condition := !f.passed, passed := true } :: frames)

/-- Closes the innermost `IF`. -/
def close : List Conditional → Except Fault (List Conditional)
  | [] => .error .endifWithoutIf
  | f :: frames => if f.isMacro then .error .endifWithoutIf else .ok frames

end Conditional

end Asm6502
