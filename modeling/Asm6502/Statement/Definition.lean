/-
# Labels and assignments

A label stands for the program counter. It is defined in the first pass, and
in the second pass it must be found again at the same place with the same
value. `.*` defines it outside all scopes and `.^` outside the innermost one,
but no label leaves a loop or a macro call.

An assignment gives a name a value in the innermost scope. The same statement
may give it another value later; another statement may not, except that `=?`
then does nothing.

Key definitions: `LineM.label`, `LineM.assignment`.
-/
import Asm6502.Statement.Basic

namespace Asm6502.LineM

/-- How a label is promoted, by the mark after its point. -/
inductive Promotion
  | none
  | outward
  | global
deriving DecidableEq, Repr

namespace Promotion

/-- The promotion that a mark asks for. -/
def ofMark : Option Char → Promotion
  | some '*' => global
  | some '^' => outward
  | _ => none

/-- The mark of a promotion. -/
def mark : Promotion → String
  | none => ""
  | outward => "^"
  | global => "*"

/-- The number of scopes that a label leaves. -/
def leaves (p : Promotion) (depth : Nat) : Nat :=
  match p with
  | none => 0
  | outward => 1
  | global => depth

end Promotion

/-- Why a label cannot leave the scopes given from the outermost, if it
cannot. -/
def barrier? : List Frame → Option Fault
  | [] => none
  | f :: frames =>
    match f.kind with
    | .loop _ => some .promoteOutOfFor
    | .expansion => some .promoteOutOfMacro
    | .brace => barrier? frames

/-- What is wrong with a label in a pass after the first, if anything is. -/
def relabelFault? (symbols : SymbolTable) (full : String) (value : Value) (position : Position) :
    Option Fault :=
  match symbols.get? full with
  | none => some .secondPassProblem
  | some symbol =>
    if !symbol.isLabel || symbol.definedAt ≠ some position then some .labelAlreadyDefined
    else if symbol.value.same value then none
    else some .secondPassProblem

/-- Executes a label whose point is at `start` and has been read. -/
def label (start : Nat) : LineM Unit := do
  let promotion := Promotion.ofMark (← peek)
  advance promotion.mark.length
  let cursor ← getCursor
  if !cursor.atName then fail .invalidSymbolName cursor.column
  let (name, after) := cursor.name
  setCursor after
  let frames := (← getWalk).frames
  let left := promotion.leaves frames.length
  match barrier? (frames.take left).reverse with
  | some fault => fail fault start
  | none =>
    let full := fullName name (frames.drop left)
    let run ← getRun
    let value := Value.ofNat run.code.pc
    let position ← position cursor.column
    if run.pass == .first then
      match run.symbols.add? full value true (some position) with
      | none => fail .labelAlreadyDefined cursor.column
      | some symbols => modifySymbols fun _ => symbols
    else
      match relabelFault? run.symbols full value position with
      | some fault => fail fault cursor.column
      | none => pure ()
    note (.placed run.pass full run.code.pc)
    pushPart (.leaf .symbol full cursor.column)
    pushNode .declaration (promotion.mark ++ name) start

/-- Gives a name its value. `conditional` says that a name defined elsewhere
stays as it is. A value that is not known defines nothing. -/
def define (full : String) (e : Expr.Evaluated) (position : Position) (conditional : Bool)
    (start : Nat) : LineM Unit := do
  match (← getRun).symbols.get? full with
  | none => if e.known then modifySymbols (·.add full e.value false (some position))
  | some symbol =>
    if symbol.definedAt = some position then modifySymbols (·.change full e.value)
    else if conditional then return
    else fail .labelAlreadyDefined start

/-- Executes the assignment that starts at the cursor. -/
def assignment : LineM Unit := do
  let cursor ← getCursor
  let start := cursor.column
  let (name, after) := cursor.name
  setCursor (after.skipBlanks.skip 1)
  let conditional := (← peek) == some '?'
  if conditional then advance 1
  let full := fullName name (← getWalk).frames
  let position ← position start
  let e ← evaluate
  pushPart (.leaf .symbol full start)
  pushPart e.node
  pushNode .declaration name start
  expectEnd
  define full e position conditional start

end Asm6502.LineM
