/-
# Directives that place code

Where the next byte goes, which bytes are forbidden, cleared or copied, which
processor is meant, and which bytes characters stand for.

Key definitions: `LineM.org`, `LineM.cpu`, `LineM.guardAddress`, `LineM.clear`,
`LineM.skip`, `LineM.skipTo`, `LineM.align`, `LineM.mapCharacters`,
`LineM.copyBlock`, `LineM.randomize`.
-/
import Asm6502.Statement.Argument

namespace Asm6502.LineM

/-- Changes the object code, or stops at a memory fault. -/
def changeCode (column : Nat) (f : ObjectCode → Except MemoryFault ObjectCode) : LineM Unit := do
  match f (← getRun).code with
  | .ok code => modifyCode fun _ => code
  | .error fault => fail (.memory fault) column

/-- `ORG` sets the program counter. -/
def org : LineM Unit := do
  let address ← (← integer).take .address
  expectEnd
  modifyCode (·.setPc address.toNat)

/-- `CPU` chooses the processor. -/
def cpu : LineM Unit := do
  let cpu ← (← integer).take (.between 0 1)
  expectEnd
  modifyCode (·.setCpu (UInt8.ofInt cpu))
  modifySymbols (·.change "CPU" (.ofInt cpu))

/-- `GUARD` forbids writing at an address. -/
def guardAddress : LineM Unit := do
  let address ← (← integer).take .address
  expectEnd
  modifyCode (·.setGuard address.toNat)

/-- `CLEAR` clears a range of memory. -/
def clear : LineM Unit := do
  let start ← (← integer).take .address
  let last ← integer
  let stop ← last.take .addressEnd
  expectEnd
  if stop < start then fail .outOfRange last.column
  modifyCode (·.clear start.toNat stop.toNat true)

/-- `SKIP` leaves out a number of bytes. -/
def skip (start : Nat) : LineM Unit := do
  let count ← (← integer).take .addressEnd
  expectEnd
  changeCode start (·.advance count.toNat)

/-- `SKIPTO` leaves out the bytes up to an address. -/
def skipTo (start : Nat) : LineM Unit := do
  let argument ← integer
  let address ← argument.take .addressEnd
  expectEnd
  let pc := (← getRun).code.pc
  if address.toNat < pc then fail .backwardsSkip argument.column
  changeCode start (·.advance (address.toNat - pc))

/-- Whether a number is a power of two. -/
def isPowerOfTwo (n : Nat) : Bool := n != 0 && n &&& (n - 1) == 0

/-- `ALIGN` leaves out the bytes up to the next multiple of a power of two. -/
def align (start : Nat) : LineM Unit := do
  let argument ← integer
  let n ← argument.take .any
  expectEnd
  if n < 1 || n > memorySize || !isPowerOfTwo n.toNat then fail .badAlignment argument.column
  changeCode start fun code => code.advance ((n.toNat - code.pc % n.toNat) % n.toNat)

/-- Makes the characters from `first` to `last` stand for bytes from `mapped`
on. -/
def mapRange (code : ObjectCode) (first last mapped : Nat) : ObjectCode :=
  (List.range (last - first + 1)).foldl
    (fun code i => code.mapChar (UInt8.ofNat (first + i)) (UInt8.ofNat (mapped + i))) code

/-- `MAPCHAR` makes a character, or a range of them, stand for other bytes. -/
def mapCharacters : LineM Unit := do
  let argument ← integer
  let first ← argument.take (.between 32 127)
  let second ← (← integer).take (.between 0 255)
  let third ← (← integer).take? (.between 0 255)
  expectEnd
  match third with
  | none => modifyCode (·.mapChar (UInt8.ofInt first) (UInt8.ofInt second))
  | some mapped =>
    if second < first || second > 127 || mapped + (second - first) > 255 then
      fail .outOfRange argument.column
    modifyCode (mapRange · first.toNat second.toNat mapped.toNat)

/-- `COPYBLOCK` copies a range of memory. -/
def copyBlock (start : Nat) : LineM Unit := do
  let first ← (← integer).take .address
  let stop ← (← integer).take .addressEnd
  let target ← (← integer).take .address
  expectEnd
  if stop < first then fail .outOfRange start
  changeCode start (·.copy first.toNat stop.toNat target.toNat)

/-- `RANDOMIZE` starts the generator from a seed. -/
def randomize : LineM Unit := do
  let seed ← (← integer).take .any
  expectEnd
  modifyRun fun r => { r with random := .ofSeed seed }

end Asm6502.LineM
