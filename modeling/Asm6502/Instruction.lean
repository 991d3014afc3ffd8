/-
# Instructions

A mnemonic has one opcode for each addressing mode that it allows. The 65C02
adds mnemonics and modes to those of the 6502; an opcode that only it has
does not exist for the other processor.

Key definitions: `Mode`, `Mnemonic`, `Mnemonic.opcode?`, `Mnemonic.find?`.
-/
import Asm6502.Text.Cursor

namespace Asm6502

/-- How an instruction finds its operand. -/
inductive Mode
  | implied
  | accumulator
  /-- `#n` -/
  | immediate
  | zeroPage
  | zeroPageX
  | zeroPageY
  | absolute
  | absoluteX
  | absoluteY
  /-- `(nn)` -/
  | indirect
  /-- `(n,X)` -/
  | indexedIndirect
  /-- `(n),Y` -/
  | indirectIndexed
  /-- `(n)` -/
  | zeroPageIndirect
  /-- `(nn,X)` -/
  | absoluteIndexedIndirect
  | relative
deriving DecidableEq, Repr, Inhabited

namespace Mode

/-- All modes. -/
def all : List Mode :=
  [implied, accumulator, immediate, zeroPage, zeroPageX, zeroPageY, absolute, absoluteX, absoluteY,
   indirect, indexedIndirect, indirectIndexed, zeroPageIndirect, absoluteIndexedIndirect, relative]

/-- The modes that are written with a bracket. -/
def bracketed : List Mode :=
  [indirect, indexedIndirect, indirectIndexed, zeroPageIndirect, absoluteIndexedIndirect]

end Mode

/-- A mnemonic with the opcodes of its modes. -/
structure Mnemonic where
  name : String
  opcodes : List (Mode × UInt8)
deriving DecidableEq, Repr, Inhabited

namespace Mnemonic

/-- All mnemonics of both processors. -/
def table : List Mnemonic :=
  [⟨"ADC", [(.immediate, 0x69), (.zeroPage, 0x65), (.zeroPageX, 0x75), (.absolute, 0x6D),
     (.absoluteX, 0x7D), (.absoluteY, 0x79), (.indexedIndirect, 0x61), (.indirectIndexed, 0x71),
     (.zeroPageIndirect, 0x72)]⟩,
   ⟨"AND", [(.immediate, 0x29), (.zeroPage, 0x25), (.zeroPageX, 0x35), (.absolute, 0x2D),
     (.absoluteX, 0x3D), (.absoluteY, 0x39), (.indexedIndirect, 0x21), (.indirectIndexed, 0x31),
     (.zeroPageIndirect, 0x32)]⟩,
   ⟨"ASL", [(.accumulator, 0x0A), (.zeroPage, 0x06), (.zeroPageX, 0x16), (.absolute, 0x0E),
     (.absoluteX, 0x1E)]⟩,
   ⟨"BCC", [(.relative, 0x90)]⟩,
   ⟨"BCS", [(.relative, 0xB0)]⟩,
   ⟨"BEQ", [(.relative, 0xF0)]⟩,
   ⟨"BIT", [(.immediate, 0x89), (.zeroPage, 0x24), (.zeroPageX, 0x34), (.absolute, 0x2C),
     (.absoluteX, 0x3C)]⟩,
   ⟨"BMI", [(.relative, 0x30)]⟩,
   ⟨"BNE", [(.relative, 0xD0)]⟩,
   ⟨"BPL", [(.relative, 0x10)]⟩,
   ⟨"BRA", [(.relative, 0x80)]⟩,
   ⟨"BRK", [(.implied, 0x00)]⟩,
   ⟨"BVC", [(.relative, 0x50)]⟩,
   ⟨"BVS", [(.relative, 0x70)]⟩,
   ⟨"CLC", [(.implied, 0x18)]⟩,
   ⟨"CLD", [(.implied, 0xD8)]⟩,
   ⟨"CLI", [(.implied, 0x58)]⟩,
   ⟨"CLV", [(.implied, 0xB8)]⟩,
   ⟨"CMP", [(.immediate, 0xC9), (.zeroPage, 0xC5), (.zeroPageX, 0xD5), (.absolute, 0xCD),
     (.absoluteX, 0xDD), (.absoluteY, 0xD9), (.indexedIndirect, 0xC1), (.indirectIndexed, 0xD1),
     (.zeroPageIndirect, 0xD2)]⟩,
   ⟨"CPX", [(.immediate, 0xE0), (.zeroPage, 0xE4), (.absolute, 0xEC)]⟩,
   ⟨"CPY", [(.immediate, 0xC0), (.zeroPage, 0xC4), (.absolute, 0xCC)]⟩,
   ⟨"DEC", [(.accumulator, 0x3A), (.zeroPage, 0xC6), (.zeroPageX, 0xD6), (.absolute, 0xCE),
     (.absoluteX, 0xDE)]⟩,
   ⟨"DEX", [(.implied, 0xCA)]⟩,
   ⟨"DEY", [(.implied, 0x88)]⟩,
   ⟨"EOR", [(.immediate, 0x49), (.zeroPage, 0x45), (.zeroPageX, 0x55), (.absolute, 0x4D),
     (.absoluteX, 0x5D), (.absoluteY, 0x59), (.indexedIndirect, 0x41), (.indirectIndexed, 0x51),
     (.zeroPageIndirect, 0x52)]⟩,
   ⟨"INC", [(.accumulator, 0x1A), (.zeroPage, 0xE6), (.zeroPageX, 0xF6), (.absolute, 0xEE),
     (.absoluteX, 0xFE)]⟩,
   ⟨"INX", [(.implied, 0xE8)]⟩,
   ⟨"INY", [(.implied, 0xC8)]⟩,
   ⟨"JMP", [(.absolute, 0x4C), (.indirect, 0x6C), (.absoluteIndexedIndirect, 0x7C)]⟩,
   ⟨"JSR", [(.absolute, 0x20)]⟩,
   ⟨"LDA", [(.immediate, 0xA9), (.zeroPage, 0xA5), (.zeroPageX, 0xB5), (.absolute, 0xAD),
     (.absoluteX, 0xBD), (.absoluteY, 0xB9), (.indexedIndirect, 0xA1), (.indirectIndexed, 0xB1),
     (.zeroPageIndirect, 0xB2)]⟩,
   ⟨"LDX", [(.immediate, 0xA2), (.zeroPage, 0xA6), (.zeroPageY, 0xB6), (.absolute, 0xAE),
     (.absoluteY, 0xBE)]⟩,
   ⟨"LDY", [(.immediate, 0xA0), (.zeroPage, 0xA4), (.zeroPageX, 0xB4), (.absolute, 0xAC),
     (.absoluteX, 0xBC)]⟩,
   ⟨"LSR", [(.accumulator, 0x4A), (.zeroPage, 0x46), (.zeroPageX, 0x56), (.absolute, 0x4E),
     (.absoluteX, 0x5E)]⟩,
   ⟨"NOP", [(.implied, 0xEA)]⟩,
   ⟨"ORA", [(.immediate, 0x09), (.zeroPage, 0x05), (.zeroPageX, 0x15), (.absolute, 0x0D),
     (.absoluteX, 0x1D), (.absoluteY, 0x19), (.indexedIndirect, 0x01), (.indirectIndexed, 0x11),
     (.zeroPageIndirect, 0x12)]⟩,
   ⟨"PHA", [(.implied, 0x48)]⟩,
   ⟨"PHP", [(.implied, 0x08)]⟩,
   ⟨"PHX", [(.implied, 0xDA)]⟩,
   ⟨"PHY", [(.implied, 0x5A)]⟩,
   ⟨"PLA", [(.implied, 0x68)]⟩,
   ⟨"PLP", [(.implied, 0x28)]⟩,
   ⟨"PLX", [(.implied, 0xFA)]⟩,
   ⟨"PLY", [(.implied, 0x7A)]⟩,
   ⟨"ROL", [(.accumulator, 0x2A), (.zeroPage, 0x26), (.zeroPageX, 0x36), (.absolute, 0x2E),
     (.absoluteX, 0x3E)]⟩,
   ⟨"ROR", [(.accumulator, 0x6A), (.zeroPage, 0x66), (.zeroPageX, 0x76), (.absolute, 0x6E),
     (.absoluteX, 0x7E)]⟩,
   ⟨"RTI", [(.implied, 0x40)]⟩,
   ⟨"RTS", [(.implied, 0x60)]⟩,
   ⟨"SBC", [(.immediate, 0xE9), (.zeroPage, 0xE5), (.zeroPageX, 0xF5), (.absolute, 0xED),
     (.absoluteX, 0xFD), (.absoluteY, 0xF9), (.indexedIndirect, 0xE1), (.indirectIndexed, 0xF1),
     (.zeroPageIndirect, 0xF2)]⟩,
   ⟨"SEC", [(.implied, 0x38)]⟩,
   ⟨"SED", [(.implied, 0xF8)]⟩,
   ⟨"SEI", [(.implied, 0x78)]⟩,
   ⟨"STA", [(.zeroPage, 0x85), (.zeroPageX, 0x95), (.absolute, 0x8D), (.absoluteX, 0x9D),
     (.absoluteY, 0x99), (.indexedIndirect, 0x81), (.indirectIndexed, 0x91),
     (.zeroPageIndirect, 0x92)]⟩,
   ⟨"STX", [(.zeroPage, 0x86), (.zeroPageY, 0x96), (.absolute, 0x8E)]⟩,
   ⟨"STY", [(.zeroPage, 0x84), (.zeroPageX, 0x94), (.absolute, 0x8C)]⟩,
   ⟨"STZ", [(.zeroPage, 0x64), (.zeroPageX, 0x74), (.absolute, 0x9C), (.absoluteX, 0x9E)]⟩,
   ⟨"TAX", [(.implied, 0xAA)]⟩,
   ⟨"TAY", [(.implied, 0xA8)]⟩,
   ⟨"TRB", [(.zeroPage, 0x14), (.absolute, 0x1C)]⟩,
   ⟨"TSB", [(.zeroPage, 0x04), (.absolute, 0x0C)]⟩,
   ⟨"TSX", [(.implied, 0xBA)]⟩,
   ⟨"TXA", [(.implied, 0x8A)]⟩,
   ⟨"TXS", [(.implied, 0x9A)]⟩,
   ⟨"TYA", [(.implied, 0x98)]⟩]

/-- The opcodes that only the 65C02 has. -/
def cmosOpcodes : List UInt8 :=
  [0x04, 0x0C, 0x12, 0x14, 0x1A, 0x1C, 0x32, 0x34, 0x3A, 0x3C, 0x52, 0x5A, 0x64, 0x72,
   0x74, 0x7A, 0x7C, 0x80, 0x89, 0x92, 0x9C, 0x9E, 0xB2, 0xD2, 0xDA, 0xF2, 0xFA]

/-- Whether a processor has an opcode. -/
def available (cpu : UInt8) (opcode : UInt8) : Bool := cpu != 0 || !cmosOpcodes.contains opcode

/-- The opcode of a mode on a processor. -/
def opcode? (m : Mnemonic) (cpu : UInt8) (mode : Mode) : Option UInt8 :=
  (m.opcodes.lookup mode).filter (available cpu)

/-- Whether a mode exists on a processor. -/
def allows (m : Mnemonic) (cpu : UInt8) (mode : Mode) : Bool := (m.opcode? cpu mode).isSome

/-- Whether some mode is written with a bracket. -/
def hasIndirect (m : Mnemonic) (cpu : UInt8) : Bool := Mode.bracketed.any (m.allows cpu)

/-- Whether a processor has the mnemonic at all. -/
def existsOn (m : Mnemonic) (cpu : UInt8) : Bool := Mode.all.any (m.allows cpu)

/-- The mnemonic that a statement starts with, in any case. No letter, digit or
underscore may follow it. -/
def find? (cs : List Char) (cpu : UInt8) : Option Mnemonic :=
  if (cs.drop 3).head?.any isNameChar then none
  else (table.find? fun m => startsWith m.name.toList cs).filter fun m => m.existsOn cpu

end Mnemonic

end Asm6502
