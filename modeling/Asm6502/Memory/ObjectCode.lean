/-
# Object code

The memory image has 65536 cells. A cell holds a byte, whether the byte was
written in the current pass, whether writing is forbidden, and how the second
pass is to treat it: a byte that the first pass was sure of is checked, one
that it guessed or that was cleared is exempt. A cell also holds where its
byte came from.

A write is refused as a whole if it does not fit, meets a guard or meets a
used cell; then nothing changes. Otherwise it is carried out, and the first
one in the second pass that changes a checked byte is reported as
inconsistent, once.

Key definitions: `Cell`, `Origin`, `ObjectCode`, `ObjectCode.write`,
`ObjectCode.clear`, `ObjectCode.copy`, `ObjectCode.beginPass`.
-/
import Asm6502.Fault
import Asm6502.Memory.Block

namespace Asm6502

/-- The number of cells. -/
def memorySize : Nat := 65536

/-- Where a byte came from. Inside the expansion of a macro, `parent` is the
number of the call. -/
structure Origin where
  file : Nat
  line : Nat
  column : Nat
  parent : Option Nat
deriving DecidableEq, Repr, Inhabited

/-- A cell of memory. -/
structure Cell where
  byte : UInt8 := 0
  /-- Written in the current pass. -/
  used : Bool := false
  /-- Writing is forbidden. -/
  guarded : Bool := false
  /-- The second pass must reproduce the byte. -/
  check : Bool := false
  /-- Never compared: cleared, or a guess of the first pass. -/
  exempt : Bool := false
  origin : Option Origin := none
deriving DecidableEq, Repr, Inhabited

namespace Cell

/-- A cell as it is before anything is assembled. -/
def blank : Cell := {}

/-- A cell after it was cleared on request. -/
def cleared : Cell := { exempt := true }

/-- The cell free for writing again. The byte and how it is checked stay. -/
def released (c : Cell) : Cell := { c with used := false, guarded := false }

/-- The cell at the start of a pass. -/
def renewed (c : Cell) : Cell := { c.released with origin := none }

/-- Whether the second pass must find `byte` here and does not. -/
def contradicts (c : Cell) (byte : UInt8) : Bool := c.check && !c.exempt && c.byte != byte

/-- The cell with a byte written to it. The first pass notes whether it was sure
of the byte. -/
def written (c : Cell) (firstPass : Bool) (byte : UInt8) (known : Bool) (origin : Origin) : Cell :=
  { c with
    byte
    used := true
    check := c.check || (firstPass && known)
    exempt := c.exempt || (firstPass && !known)
    origin := some origin }

/-- The flags as a number: used 1, guarded 2, check 4, exempt 8. -/
def flags (c : Cell) : Nat :=
  c.used.toNat + 2 * c.guarded.toNat + 4 * c.check.toNat + 8 * c.exempt.toNat

end Cell

/-- The memory image and the registers that emission uses. -/
structure ObjectCode where
  memory : Block Cell 16
  /-- The macro calls that bytes were expanded from. -/
  callSites : Array Origin
  /-- The program counter, where the next byte goes. -/
  pc : Nat
  /-- 0 for the 6502, anything else for the 65C02. -/
  cpu : UInt8
  /-- The characters that strings map to other bytes. -/
  chars : Block (Option UInt8) 8
  firstPass : Bool
  inconsistencyReported : Bool

namespace ObjectCode

/-- Object code before the first pass. -/
def empty : ObjectCode where
  memory := .uniform Cell.blank
  callSites := #[]
  pc := 0
  cpu := 0
  chars := .uniform none
  firstPass := true
  inconsistencyReported := false

instance : Inhabited ObjectCode := ⟨empty⟩

/-- Object code at the start of a pass: every cell is free, the bytes stay to be
compared. -/
def beginPass (code : ObjectCode) (firstPass : Bool) (cpu : UInt8) : ObjectCode :=
  { code with
    memory := code.memory.map Cell.renewed
    callSites := #[]
    pc := 0
    cpu
    chars := .uniform none
    firstPass }

/-- The cell at an address. -/
def cell (code : ObjectCode) (address : Nat) : Cell := code.memory.get address

/-- Sets the program counter. -/
def setPc (code : ObjectCode) (pc : Nat) : ObjectCode := { code with pc }

/-- Sets the processor. -/
def setCpu (code : ObjectCode) (cpu : UInt8) : ObjectCode := { code with cpu }

/-- Moves the program counter on, at most to the end of memory. -/
def advance (code : ObjectCode) (amount : Nat) : Except MemoryFault ObjectCode :=
  if code.pc + amount > memorySize then .error .outOfMemory
  else .ok { code with pc := code.pc + amount }

/-- Why writing `count` bytes at the program counter is refused, if it is. -/
def refusal (code : ObjectCode) (count : Nat) : Option MemoryFault :=
  let cells := code.memory.slice code.pc (code.pc + count)
  if code.pc + count > memorySize then some .outOfMemory
  else if cells.any Cell.guarded then some .guardHit
  else if cells.any Cell.used then some .overlap
  else none

/-- Whether one of the bytes contradicts the first pass. -/
def contradicted (code : ObjectCode) (pc : Nat) : List (UInt8 × Bool) → Bool
  | [] => false
  | (byte, _) :: bytes => (code.cell pc).contradicts byte || code.contradicted (pc + 1) bytes

/-- Writes a byte at the program counter and moves on. -/
def put (code : ObjectCode) (origin : Origin) (byte : UInt8) (known : Bool) : ObjectCode :=
  { code with
    memory := code.memory.set code.pc
      ((code.cell code.pc).written code.firstPass byte known origin)
    pc := code.pc + 1 }

/-- Writes bytes at the program counter, each with whether it is known, unless
the write is refused. -/
def write (code : ObjectCode) (bytes : List (UInt8 × Bool)) (origin : Origin) :
    Option MemoryFault × ObjectCode :=
  match code.refusal bytes.length with
  | some fault => (some fault, code)
  | none =>
    let after := bytes.foldl (fun code (byte, known) => code.put origin byte known) code
    if !code.firstPass && code.contradicted code.pc bytes && !code.inconsistencyReported then
      (some .inconsistentCode, { after with inconsistencyReported := true })
    else (none, after)

/-- Forbids writing at an address. -/
def setGuard (code : ObjectCode) (address : Nat) : ObjectCode :=
  if address < memorySize then
    { code with
      memory := code.memory.set address { code.cell address with guarded := true } }
  else code

/-- Clears the cells from `start` up to `stop`. A hard clear zeroes them and
exempts them from the check; a soft one only frees them for writing. -/
def clear (code : ObjectCode) (start stop : Nat) (hard : Bool) : ObjectCode :=
  let change := if hard then fun _ => Cell.cleared else Cell.released
  { code with memory := code.memory.mapRange change start (min stop memorySize) }

/-- Copies the cells from `start` up to `stop` to `target`, all at once. -/
def copy (code : ObjectCode) (start stop target : Nat) : Except MemoryFault ObjectCode :=
  if stop < start || stop > memorySize || target + (stop - start) > memorySize then
    .error .outOfMemory
  else
    .ok { code with memory := code.memory.setAll target (code.memory.slice start stop) }

/-- Whether strings can map a character: those from a space up to the end of
seven bits. -/
def isMappable (c : UInt8) : Bool := 32 ≤ c && c < 128

/-- Makes a character stand for another byte in strings. -/
def mapChar (code : ObjectCode) (c mapped : UInt8) : ObjectCode :=
  if isMappable c then { code with chars := code.chars.set c.toNat (some mapped) } else code

/-- The byte that a character of a string stands for. -/
def mappedChar (code : ObjectCode) (c : UInt8) : UInt8 := (code.chars.get c.toNat).getD c

/-- The bytes from `start` up to `stop`, both cut to the size of memory. -/
def bytes (code : ObjectCode) (start stop : Nat) : List UInt8 :=
  (code.memory.slice (min start memorySize) (min stop memorySize)).map Cell.byte

/-- Where the byte at an address came from. -/
def origin? (code : ObjectCode) (address : Nat) : Option Origin :=
  if address < memorySize then (code.cell address).origin else none

/-- Notes a macro call and gives its number. -/
def pushCallSite (code : ObjectCode) (site : Origin) : Nat × ObjectCode :=
  (code.callSites.size, { code with callSites := code.callSites.push site })

/-- The macro call of a number. -/
def callSite? (code : ObjectCode) (id : Nat) : Option Origin := code.callSites[id]?

/-- The number of cells written in this pass. -/
def usedBytes (code : ObjectCode) : Nat := code.memory.toList.countP Cell.used

end ObjectCode

end Asm6502
