/-
# Walking over the lines of a buffer

A buffer is a file, an included file or the body of a macro. Walking over it
keeps the next line, the open scopes, the open conditionals and the macro
whose lines are being captured. The scopes that were open when the walk began
belong to its caller and cannot be closed here. A loop goes on by moving the
walk back to the column after its `FOR`.

Key definitions: `Buffer`, `Walk`, `Walk.frames`, `Walk.openScope`,
`Walk.closeBrace`, `Walk.startLoop`, `Walk.stepLoop`, `Walk.startMacro`,
`Walk.endMacro`, `Walk.finish`.
-/
import Asm6502.Conditional
import Asm6502.Run
import Asm6502.Scope
import Asm6502.Text.Lines

namespace Asm6502

/-- Lines to walk over, and where they stand. -/
structure Buffer where
  file : Nat
  lines : Array String
  /-- The number in the file of the first line. -/
  firstLine : Nat
  /-- The number of the macro call that the lines expand. -/
  callSite : Option Nat
deriving DecidableEq, Repr, Inhabited

namespace Buffer

/-- The lines of a text. -/
def ofText (file : Nat) (text : String) (firstLine : Nat) (callSite : Option Nat) : Buffer :=
  ⟨file, (Text.lines text).toArray, firstLine, callSite⟩

/-- The place in the file of a place in the buffer. -/
def position (b : Buffer) (index column : Nat) : Position := ⟨b.file, b.firstLine + index, column⟩

/-- Where a byte written by a statement comes from. -/
def origin (b : Buffer) (index column : Nat) : Origin :=
  ⟨b.file, b.firstLine + index, column, b.callSite⟩

/-- What a fault at a place of the buffer is shown as: from its column to the end
of the line. -/
def diagnostic (b : Buffer) (spot : Spot) (fault : Fault) : Diagnostic :=
  let length := (b.lines[spot.index]?.map String.utf8ByteSize).getD spot.column
  ⟨.error, ⟨b.firstLine + spot.index, spot.column, max length spot.column⟩, fault.message⟩

end Buffer

/-- A macro whose lines are being captured, from the line after `startIndex`
on. -/
structure Capture where
  definition : Macro
  startIndex : Nat
deriving DecidableEq, Repr, Inhabited

/-- A walk over a buffer. -/
structure Walk where
  buffer : Buffer
  /-- The index of the next line. -/
  next : Nat
  /-- The column at which the next line is entered. -/
  resumeColumn : Nat
  /-- Whether the line at hand has moved the walk back. -/
  rewound : Bool
  /-- The scopes of the caller. -/
  inherited : List Frame
  /-- The scopes opened on this walk. -/
  own : List Frame
  conditionals : List Conditional
  capture : Option Capture
deriving Inhabited

namespace Walk

/-- A walk that has not begun. -/
def start (buffer : Buffer) (inherited : List Frame) : Walk :=
  ⟨buffer, 0, 0, false, inherited, [], [], none⟩

/-- The open scopes, innermost first. -/
def frames (w : Walk) : List Frame := w.own ++ w.inherited

/-- Whether a loop is open. -/
def inLoop (w : Walk) : Bool := w.frames.any Frame.isLoop

/-- Whether statements are executed. -/
def isLive (w : Walk) : Bool := Conditional.allTrue w.conditionals

/-- Whether everything around the innermost conditional is executed. -/
def isOuterLive (w : Walk) : Bool := Conditional.outerTrue w.conditionals

/-- Opens a scope with the next number of the pass. -/
def openScope (w : Walk) (r : Run) (kind : FrameKind) (spot : Spot) :
    Except Fault (Walk × Run) :=
  if w.frames.length ≥ maxScopes then .error .tooManyScopes
  else
    let id := r.lastScope + 1
    .ok ({ w with own := ⟨kind, id, 0, spot⟩ :: w.own }, { r with lastScope := id })

/-- Closes the innermost scope, which must be a brace of this walk. -/
def closeBrace (w : Walk) : Except Fault Walk :=
  match w.own with
  | f :: own => if f.isBrace then .ok { w with own } else .error .mismatchedBraces
  | [] => .error .mismatchedBraces

/-- Closes the innermost scope if it is a macro call. -/
def closeExpansion (w : Walk) : Walk :=
  match w.own with
  | f :: own => if f.isExpansion then { w with own } else w
  | [] => w

/-- Gives a loop variable its value in the current iteration. -/
def bindVariable (symbols : SymbolTable) (frames : List Frame) (l : Loop) : SymbolTable :=
  let full := fullName l.name frames
  let value := Value.num l.current
  (symbols.add? full value false none).getD (symbols.change full value)

/-- Opens a loop and binds its variable inside it. -/
def startLoop (w : Walk) (r : Run) (l : Loop) (spot : Spot) : Except Fault (Walk × Run) :=
  if l.step == 0 then .error .badStep
  else do
    let (w, r) ← w.openScope r (.loop l) spot
    return (w, { r with symbols := bindVariable r.symbols w.frames l })

/-- Ends an iteration of the innermost scope, which must be a loop of this walk.
The walk moves back unless the loop is done. -/
def stepLoop (w : Walk) (r : Run) : Except Fault (Walk × Run) :=
  match w.own with
  | [] => .error .nextWithoutFor
  | f :: own =>
    match f.kind with
    | .loop l =>
      match l.next? with
      | none => .ok ({ w with own }, r)
      | some l =>
        let own := { f with kind := .loop l, count := f.count + 1 } :: own
        let w :=
          { w with own, next := l.resume.index, resumeColumn := l.resume.column, rewound := true }
        .ok (w, { r with symbols := bindVariable r.symbols w.frames l })
    | _ => .error .nextWithoutFor

/-- Opens the definition of a macro, whose lines are captured if there is a
macro to fill. -/
def startMacro (w : Walk) (definition : Option Macro) (spot : Spot) : Except Fault Walk :=
  if w.capture.isSome || w.conditionals.any Conditional.isMacro then .error .noNestedMacros
  else do
    let conditionals ← Conditional.openMacro w.conditionals spot
    return { w with conditionals, capture := definition.map (⟨·, spot.index⟩) }

/-- Ends the definition of a macro, with the macro if one was captured. -/
def endMacro (w : Walk) : Except Fault (Option Macro × Walk) :=
  match w.conditionals with
  | f :: conditionals =>
    if f.isMacro then
      .ok (w.capture.map Capture.definition, { w with conditionals, capture := none })
    else .error .endMacroUnexpected
  | [] => .error .endMacroUnexpected

/-- Adds a line to the macro being captured, unless it is the line of its
header. -/
def captureLine (w : Walk) (index : Nat) (line : String) : Walk :=
  match w.capture with
  | none => w
  | some c =>
    if c.startIndex = index then w
    else { w with capture := some { c with definition := c.definition.addLine line } }

/-- Reports a fault at a place of the buffer. -/
def reportAt (w : Walk) (r : Run) (spot : Spot) (fault : Fault) : Run :=
  r.report w.buffer.file (w.buffer.diagnostic spot fault)

/-- The fault of a conditional that is open at the end. -/
def unclosedConditional (c : Conditional) : Fault :=
  if c.isMacro then .noEndMacro else .ifWithoutEndif

/-- The fault of a scope that is open at the end. -/
def unclosedScope? (f : Frame) : Option Fault :=
  match f.kind with
  | .loop _ => some .forWithoutNext
  | .brace => some .mismatchedBraces
  | .expansion => none

/-- Ends the walk: reports what is still open, conditionals from the outermost
and scopes from the innermost, and closes it. -/
def finish (w : Walk) (r : Run) : Walk × Run :=
  let r := w.conditionals.reverse.foldl
    (fun r c => w.reportAt r c.openedAt (unclosedConditional c)) r
  let r := w.own.foldl
    (fun r f =>
      match unclosedScope? f with
      | some fault => w.reportAt r f.openedAt fault
      | none => r) r
  ({ w with own := [], conditionals := [], capture := none }, r)

end Walk

end Asm6502
