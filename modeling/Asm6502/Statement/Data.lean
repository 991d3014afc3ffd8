/-
# Directives for data and messages

`EQUB`, `EQUW` and `EQUD` write numbers of one, two and four bytes, the lowest
byte first; `EQUB` also writes the characters of strings. `ASSERT`, `PRINT` and
`ERROR` speak to the programmer, in the second pass.

Key definitions: `LineM.equ`, `LineM.assert`, `LineM.print`, `LineM.error`.
-/
import Asm6502.Statement.Argument

namespace Asm6502.LineM

/-- The least and the greatest number that fits a width in bytes, with or without
a sign. -/
def bounds (width : Nat) : Float × Float :=
  (-(Float.ofNat (Nat.pow 2 (8 * width - 1))), Float.ofNat (Nat.pow 2 (8 * width) - 1))

/-- The bytes of an integer, the lowest first. -/
def littleEndian : Nat → Int → List UInt8
  | 0, _ => []
  | width + 1, n => UInt8.ofInt n :: littleEndian width (n / 256)

/-- Writes the characters of a string as they are mapped. -/
def writeText (column : Nat) : List Char → LineM Unit
  | [] => return
  | c :: cs => do
    if c.toNat > 255 then fail .outOfRange column
    let byte := (← getRun).code.mappedChar (UInt8.ofNat c.toNat)
    write [(byte, true)] column
    writeText column cs

/-- Writes a value in a width. -/
def writeValue (width : Nat) (e : Expr.Evaluated) (column : Nat) : LineM Unit :=
  match e.value with
  | .str text =>
    if width ≠ 1 then fail .typeMismatch column else writeText column text.toList
  | .num n => do
    let whole := Number.truncate n
    let (low, high) := bounds width
    if e.known && (whole < low || whole > high) then fail .numberTooBig column
    writeEach e.known column (littleEndian width (Number.toInteger n))

/-- `EQUB`, `EQUW` and `EQUD` write values in a width. -/
def equ (width : Nat) : LineM Unit :=
  separated do
    skipBlanks
    let start ← column
    let e ← evaluate
    pushPart e.node
    writeValue width e start

/-- `ASSERT` stops at the first of its values that is zero. -/
def assert : LineM Unit :=
  separated do
    skipBlanks
    let start ← column
    let e ← evaluate
    pushPart e.node
    let n ← ofFault start e.value.number
    if e.known && (← isSecondPass) && n == 0 then fail .assertionFailed start

/-- The text of a value in a `PRINT`, where `hex` asks for a number in
hexadecimal. -/
def printedText (hex : Bool) : Value → String
  | .str text => text
  | .num n =>
    if hex then "&" ++ Number.hexadecimal (Number.toWord n % 0x100000000).toNat else Number.format n

/-- The texts of the values of a `PRINT`, those in `before` first. -/
def printItems (before : List String) : Nat → LineM (List String)
  | 0 => return before
  | steps + 1 => do
    if ← atEnd then return before
    if !(← get).parts.isEmpty then
      expectComma
      skipBlanks
    let hex := (← peek) == some '~'
    if hex then advance 1
    let e ← evaluate
    pushPart e.node
    printItems (before ++ [printedText hex e.value]) steps

/-- `PRINT` prints values with a blank between them. -/
def print : LineM Unit := do
  let items ← printItems [] ((← getCursor).rest.length + 1)
  if ← isSecondPass then
    modifyRun fun r => { r with printed := r.printed.push (" ".intercalate items) }

/-- `ERROR` stops with a message. -/
def error (start : Nat) : LineM Unit := do
  let message ← (← text).take .any
  expectEnd
  if ← isSecondPass then fail (.userError message) start

end Asm6502.LineM
