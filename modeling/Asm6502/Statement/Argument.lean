/-
# Arguments

Arguments of a directive are separated by commas and read from left to right.
An argument may be left off at the end, and in the first pass it may be
undefined because a name in it is. What then counts, and which values are
refused, is the `Rule` of the argument.

Key definitions: `Argument`, `Rule`, `Argument.take`, `LineM.argument`,
`LineM.optionalText`.
-/
import Asm6502.Statement.Basic

namespace Asm6502

/-- What was found where an argument may stand. -/
inductive Reading (α : Type)
  | missing
  /-- A name in it is not defined. -/
  | undefined
  | found (a : α)
deriving Repr

/-- An argument and the column where it stands. -/
structure Argument (α : Type) where
  column : Nat
  reading : Reading α
deriving Repr

/-- What an argument may be. -/
structure Rule (α : Type) where
  /-- Why a value is refused, if it is. -/
  refuses : α → Option Fault := fun _ => none
  /-- What counts when the argument is undefined, none if that is a fault. -/
  standIn : Option α := none
  /-- What counts when the argument is left off, none if that is a fault. -/
  otherwise : Option α := none

namespace Rule

/-- Any value. -/
def any : Rule α := {}

/-- An integer from `low` to `high`. -/
def between (low high : Int) : Rule Int where
  refuses n := if n < low || n > high then some .outOfRange else none

/-- An address of 16 bits. -/
def address : Rule Int where
  refuses n := if n < 0 || n > 0xFFFF then some .badAddress else none

/-- The end of a range of addresses. -/
def addressEnd : Rule Int := between 0 memorySize

/-- The rule with a value that counts for an undefined argument. -/
def tolerating (rule : Rule α) (a : α) : Rule α := { rule with standIn := some a }

/-- The rule with a value that counts for an undefined or missing argument. -/
def defaulting (rule : Rule α) (a : α) : Rule α :=
  { rule with standIn := some a, otherwise := some a }

/-- The rule with a value that counts for a missing argument. -/
def orElse (rule : Rule α) (a : α) : Rule α := { rule with otherwise := some a }

end Rule

namespace Argument

/-- The value of an argument under a rule. -/
def take (rule : Rule α) (a : Argument α) : LineM α :=
  match a.reading with
  | .found x =>
    match rule.refuses x with
    | some fault => LineM.fail fault a.column
    | none => pure x
  | .undefined =>
    match rule.standIn with
    | some x => pure x
    | none => LineM.fail .symbolNotDefined a.column
  | .missing =>
    match rule.otherwise with
    | some x => pure x
    | none => LineM.fail .parameterCount a.column

/-- The value of an argument under a rule, none if it is left off. -/
def take? (rule : Rule α) (a : Argument α) : LineM (Option α) :=
  match a.reading with
  | .missing => pure none
  | _ => some <$> a.take rule

end Argument

namespace LineM

/-- Reads the next argument and converts its value. All but the first follow a
comma. -/
def argument (convert : Value → Except Fault α) : LineM (Argument α) := do
  if ← atEnd then return ⟨← column, .missing⟩
  if !(← get).parts.isEmpty then expectComma
  skipBlanks
  let start ← column
  let e ← evaluate
  pushPart e.node
  if e.known then return ⟨start, .found (← ofFault start (convert e.value))⟩
  else return ⟨start, .undefined⟩

/-- Reads the next argument as an integer. -/
def integer : LineM (Argument Int) := argument Value.integer

/-- Reads the next argument as a number. -/
def number : LineM (Argument Float) := argument Value.number

/-- Reads the next argument as a text. -/
def text : LineM (Argument String) := argument Value.text

/-- Reads the next argument only if it is a text. Otherwise it is left to be read
again; the generator keeps what was drawn. -/
def optionalText : LineM (Option String) := do
  let before ← getCursor
  let first := (← get).parts.isEmpty
  if ← atEnd then return none
  if !first && (← peek) != some ',' then return none
  if !first then advance 1
  let e ← evaluate
  match e.value with
  | .str text =>
    pushPart e.node
    return some text
  | .num _ =>
    setCursor before
    return none

end LineM

end Asm6502
