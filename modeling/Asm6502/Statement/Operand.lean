/-
# Instructions

A mnemonic is followed by nothing, `A`, `#` and a value, or an address that may
be bracketed and indexed. A bracket may open an indirect mode or an ordinary
expression; the indirect reading is tried first, and given up without a trace
if the statement goes on in a way that no indirect mode does.

An address below 256 takes one byte if the mnemonic has that mode. In the first
pass a branch is written with a stand-in, since its target may still move.

Key definitions: `LineM.instruction`, `LineM.operand`, `LineM.indirect`,
`LineM.address`, `LineM.branch`.
-/
import Asm6502.Instruction
import Asm6502.Statement.Basic

namespace Asm6502.LineM

/-- The byte of an integer, its lowest eight bits. -/
def byteOf (n : Int) : UInt8 := UInt8.ofInt n

/-- The opcode of a mode on the processor at hand. -/
def opcode? (m : Mnemonic) (mode : Mode) : LineM (Option UInt8) :=
  return m.opcode? (← getRun).code.cpu mode

/-- Writes an instruction without operand. -/
def emitImplied (opcode : UInt8) (start : Nat) : LineM Unit := write [(opcode, true)] start

/-- Writes an instruction with an operand of one byte. -/
def emitByte (opcode : UInt8) (n : Int) (known : Bool) (start : Nat) : LineM Unit :=
  write [(opcode, true), (byteOf n, known)] start

/-- Writes an instruction with an operand of two bytes, the lower one first. -/
def emitWord (opcode : UInt8) (n : Int) (known : Bool) (start : Nat) : LineM Unit :=
  write [(opcode, true), (byteOf n, known), (byteOf (n / 256), known)] start

/-- A known address must lie in the zero page. -/
def checkZeroPage (n : Int) (known : Bool) (column : Nat) : LineM Unit :=
  if known && (n < 0 || n > 0xFF) then fail .notZeroPage column else return

/-- A known address must have 16 bits. -/
def checkAddress (n : Int) (known : Bool) (column : Nat) : LineM Unit :=
  if known && (n < 0 || n > 0xFFFF) then fail .badAddress column else return

/-- Reads nothing more: implied mode, or the accumulator. -/
def implied (m : Mnemonic) (start : Nat) : LineM Unit := do
  match (← opcode? m .implied), (← opcode? m .accumulator) with
  | some opcode, _ => emitImplied opcode start
  | none, some opcode => emitImplied opcode start
  | none, none => fail .noImplied start

/-- Reads an immediate value at its `#`. -/
def immediate (m : Mnemonic) (start : Nat) : LineM Unit := do
  let mark ← column
  match ← opcode? m .immediate with
  | none => fail .noImmediate mark
  | some opcode =>
    advance 1
    let e ← evaluate
    pushPart e.node
    let n ← ofFault mark e.value.integer
    expectEnd
    if e.known && n > 0xFF then fail .immediateTooLarge mark
    if e.known && n < -0x80 then fail .immediateNegative mark
    emitByte opcode n e.known start

/-- Whether the `A` at the cursor stands for the accumulator: nothing follows it
in the statement. -/
def isAccumulator (c : Cursor) : Bool :=
  let after := c.skip 1
  !after.peek.any isNameChar && after.atStatementEnd

/-- Reads the accumulator. -/
def accumulator (opcode : UInt8) (start : Nat) : LineM Unit := do
  let mark ← column
  advance 1
  pushPart (.leaf .value "A" mark)
  expectEnd
  emitImplied opcode start

/-- Writes a branch. Its target must be near, except in the first pass, where the
branch itself stands in for it. -/
def branch (opcode : UInt8) (target : Int) (known : Bool) (start column : Nat) : LineM Unit := do
  let run ← getRun
  let pc : Int := run.code.pc
  let first := run.pass == .first
  let offset := (if first then pc else target) - (pc + 2)
  if offset < -128 || offset > 127 then fail .branchOutOfRange column
  emitByte opcode offset (!first && known) start

/-- The part of an indexed indirect operand after its comma: `X` and the closing
bracket. -/
def indexedIndirect (m : Mnemonic) (n : Int) (known : Bool) (start bracket : Nat) :
    LineM Unit := do
  advance 1
  skipBlanks
  let register ← peek
  if register != some 'X' && register != some 'x' then fail .badIndexed (← column)
  advance 1
  skipBlanks
  if (← peek) != some ')' then fail .mismatchedParentheses bracket
  advance 1
  pushPart (.leaf .value "X" bracket)
  expectEnd
  match (← opcode? m .indexedIndirect), (← opcode? m .absoluteIndexedIndirect) with
  | some opcode, _ =>
    checkZeroPage n known bracket
    emitByte opcode n known start
  | none, some opcode =>
    checkAddress n known bracket
    emitWord opcode n known start
  | none, none => fail .noIndexedX bracket

/-- An indirect operand with nothing after its bracket. False if the mnemonic has
no such mode. -/
def plainIndirect (m : Mnemonic) (n : Int) (known : Bool) (start bracket : Nat) :
    LineM Bool := do
  match (← opcode? m .indirect), (← opcode? m .zeroPageIndirect) with
  | some opcode, _ =>
    checkAddress n known bracket
    if known && (← getRun).code.cpu == 0 && n % 256 == 0xFF then
      fail (.memory .indirectJumpBug) bracket
    emitWord opcode n known start
    return true
  | none, some opcode =>
    checkZeroPage n known bracket
    emitByte opcode n known start
    return true
  | none, none => return false

/-- An indirect operand with a comma after its bracket. False unless `Y` follows
and the mnemonic has that mode. -/
def indirectIndexed (m : Mnemonic) (n : Int) (known : Bool) (start bracket : Nat) :
    LineM Bool := do
  let register := ((← getCursor).skip 1).skipBlanks
  match ← opcode? m .indirectIndexed with
  | none => return false
  | some opcode =>
    if register.peek != some 'Y' && register.peek != some 'y' then return false
    setCursor (register.skip 1)
    pushPart (.leaf .value "Y" register.column)
    expectEnd
    checkZeroPage n known bracket
    emitByte opcode n known start
    return true

/-- Reads an indirect operand at its bracket. False if it turns out to be no
indirect one. -/
def indirect (m : Mnemonic) (start : Nat) : LineM Bool := do
  let bracket ← column
  advance 1
  let e ← evaluate
  let n ← ofFault bracket e.value.integer
  pushPart e.node
  skipBlanks
  match ← peek with
  | some ',' =>
    indexedIndirect m n e.known start bracket
    return true
  | some ')' =>
    advance 1
    if ← atEnd then plainIndirect m n e.known start bracket
    else if (← peek) == some ',' then indirectIndexed m n e.known start bracket
    else return false
  | _ => fail .mismatchedParentheses bracket

/-- The modes that an address may have: one byte, two bytes, and the fault if
there is neither. -/
structure AddressModes where
  short : Mode
  long : Mode
  missing : Fault

/-- Reads the index register after the comma of an address. It takes one byte,
whatever it is. -/
def indexRegister : LineM AddressModes := do
  advance 1
  skipBlanks
  let register ← getCursor
  if (register.skip 1).peek.any isNameChar && register.peek.all (·.utf8Size == 1) then
    fail .badIndexed register.column
  if register.peek.any (·.utf8Size != 1) then fail .invalidCharacter (register.column + 1)
  advance 1
  expectEnd
  match register.peek with
  | some 'X' | some 'x' =>
    pushPart (.leaf .value "X" register.column)
    return ⟨.zeroPageX, .absoluteX, .noIndexedX⟩
  | some 'Y' | some 'y' =>
    pushPart (.leaf .value "Y" register.column)
    return ⟨.zeroPageY, .absoluteY, .noIndexedY⟩
  | _ => fail .badIndexed register.column

/-- Reads what follows an address: nothing, or an index register. -/
def addressModes : LineM AddressModes := do
  if ← atEnd then return ⟨.zeroPage, .absolute, .noAbsolute⟩
  else if (← peek) == some ',' then indexRegister
  else fail .invalidCharacter (← column)

/-- Writes an instruction with an address in one byte if it can, else in two. -/
def emitAddress (m : Mnemonic) (modes : AddressModes) (n : Int) (known : Bool)
    (start begin : Nat) : LineM Unit := do
  match (← opcode? m modes.short), (← opcode? m modes.long) with
  | some short, some long =>
    if n < 0x100 then emitByte short n known start else emitWord long n known start
  | some short, none =>
    if n < 0x100 then emitByte short n known start else fail .notZeroPage begin
  | none, some long => emitWord long n known start
  | none, none => fail modes.missing begin

/-- Reads an address, indexed or not. -/
def address (m : Mnemonic) (start : Nat) : LineM Unit := do
  let begin ← column
  let e ← evaluate
  pushPart e.node
  let n ← ofFault begin e.value.integer
  match ← opcode? m .relative with
  | some opcode =>
    expectEnd
    branch opcode n e.known start begin
  | none =>
    checkAddress n e.known begin
    emitAddress m (← addressModes) n e.known start begin

/-- Reads an operand that starts with a bracket. -/
def bracketed (m : Mnemonic) (start : Nat) : LineM Unit := do
  let before ← get
  if !(← indirect m start) then
    modify fun s =>
      { s with
        cursor := before.cursor
        parts := before.parts
        run := { s.run with random := before.run.random } }
    address m start

/-- Reads the operand of an instruction that starts at a column, and writes the
instruction. -/
def operand (m : Mnemonic) (start : Nat) : LineM Unit := do
  if ← atEnd then implied m start
  else
    let cursor ← getCursor
    let cpu := (← getRun).code.cpu
    match cursor.peek, m.opcode? cpu .accumulator with
    | some '#', _ => immediate m start
    | some '(', _ => if m.hasIndirect cpu then bracketed m start else address m start
    | some 'A', some opcode =>
      if isAccumulator cursor then accumulator opcode start else address m start
    | some 'a', some opcode =>
      if isAccumulator cursor then accumulator opcode start else address m start
    | _, _ => address m start

/-- Reads and writes the instruction whose mnemonic starts at a column and has
been read. Its tree is kept whether it can be written or not. -/
def instruction (m : Mnemonic) (start : Nat) : LineM Unit :=
  (operand m start).andThen fun s =>
    { s with nodes := s.nodes.push (.mk .assembly m.name start s.parts.toList) }

end Asm6502.LineM
