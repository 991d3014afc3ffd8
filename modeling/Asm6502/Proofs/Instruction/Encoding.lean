/-
# The encoding of instructions

An opcode stands for one mnemonic in one mode: no two entries of the table
share one. The mode says how many bytes follow and what they mean, so the
operand can be read back from them. An address of one byte is its own byte, one
of two bytes comes with the lower byte first, and a branch gives the distance
of its target from the instruction after it.

Key definitions: `Addressing`, `Mode.size`, `Mode.Means`, `IsEncoding`.
Key theorems: `Mnemonic.opcode?_unique`, `Mode.length_of_means`.
-/
import Mathlib.Data.List.Nodup
import Mathlib.Data.List.Pairwise
import Mathlib.Tactic.ByContra
import Asm6502.Instruction
import Asm6502.Proofs.Memory.Write
import Asm6502.Statement.Operand

namespace Asm6502

/-- The operand of an instruction as it is written: how it is addressed and with
which number. -/
inductive Addressing
  | nothing
  /-- `A` -/
  | accumulator
  /-- `#n` -/
  | immediate (n : Int)
  /-- `n` -/
  | direct (n : Int)
  /-- `n,X` -/
  | directX (n : Int)
  /-- `n,Y` -/
  | directY (n : Int)
  /-- `(n)` -/
  | bracketed (n : Int)
  /-- `(n,X)` -/
  | bracketedX (n : Int)
  /-- `(n),Y` -/
  | bracketedY (n : Int)
deriving DecidableEq, Repr

/-- The number of an operand, zero if it has none. -/
def Addressing.number : Addressing → Int
  | nothing | accumulator => 0
  | immediate n | direct n | directX n | directY n | bracketed n | bracketedX n | bracketedY n => n

namespace Mode

/-- The number of bytes of an instruction. -/
def size : Mode → Nat
  | implied | accumulator => 1
  | immediate | zeroPage | zeroPageX | zeroPageY | indexedIndirect | indirectIndexed
  | zeroPageIndirect | relative => 2
  | absolute | absoluteX | absoluteY | indirect | absoluteIndexedIndirect => 3

/-- Whether a mode is one for an operand that is written so. An operand left off
may be the accumulator. -/
def Takes : Mode → Addressing → Prop
  | implied, .nothing | accumulator, .nothing | accumulator, .accumulator => True
  | immediate, .immediate _ => True
  | zeroPage, .direct _ | absolute, .direct _ | relative, .direct _ => True
  | zeroPageX, .directX _ | absoluteX, .directX _ => True
  | zeroPageY, .directY _ | absoluteY, .directY _ => True
  | zeroPageIndirect, .bracketed _ | indirect, .bracketed _ => True
  | indexedIndirect, .bracketedX _ | absoluteIndexedIndirect, .bracketedX _ => True
  | indirectIndexed, .bracketedY _ => True
  | _, _ => False

theorem eq_of_takes_accumulator {mode : Mode} (h : mode.Takes .accumulator) : mode = accumulator := by
  cases mode <;> cases h
  rfl

theorem eq_of_takes_bracketed {mode : Mode} {n : Int} (h : mode.Takes (.bracketed n)) :
    mode = indirect ∨ mode = zeroPageIndirect := by
  cases mode <;> cases h <;> simp

theorem eq_of_takes_bracketedX {mode : Mode} {n : Int} (h : mode.Takes (.bracketedX n)) :
    mode = indexedIndirect ∨ mode = absoluteIndexedIndirect := by
  cases mode <;> cases h <;> simp

theorem eq_of_takes_bracketedY {mode : Mode} {n : Int} (h : mode.Takes (.bracketedY n)) :
    mode = indirectIndexed := by
  cases mode <;> cases h
  rfl

/-- What the bytes after the opcode of an instruction at `pc` say about the number
of its operand. -/
def Means (pc : Nat) : Mode → List UInt8 → Int → Prop
  | implied, [], _ | accumulator, [], _ => True
  | immediate, [b], n => -128 ≤ n ∧ n ≤ 255 ∧ n % 256 = b.toNat
  | relative, [b], n => n = pc + 2 + b.toInt8.toInt
  | zeroPage, [b], n | zeroPageX, [b], n | zeroPageY, [b], n => n = b.toNat
  | zeroPageIndirect, [b], n | indexedIndirect, [b], n | indirectIndexed, [b], n => n = b.toNat
  | absolute, [low, high], n | absoluteX, [low, high], n | absoluteY, [low, high], n =>
    n = low.toNat + 256 * high.toNat
  | indirect, [low, high], n | absoluteIndexedIndirect, [low, high], n =>
    n = low.toNat + 256 * high.toNat
  | _, _, _ => False

/-- The modes for an address, the one with one byte before the one with two. -/
def addressPairs : List (Mode × Mode) :=
  [(zeroPage, absolute), (zeroPageX, absoluteX), (zeroPageY, absoluteY)]

theorem length_of_means {pc : Nat} {mode : Mode} {rest : List UInt8} {n : Int}
    (h : mode.Means pc rest n) : rest.length + 1 = mode.size := by
  rcases rest with _ | ⟨b, _ | ⟨c, _ | ⟨d, rest⟩⟩⟩ <;> cases mode <;> cases h <;> rfl

end Mode

namespace Mnemonic

theorem nodup_opcodes : (table.flatMap fun m => m.opcodes.map Prod.snd).Nodup := by
  decide +kernel

theorem mem_opcodes_of_opcode? {m : Mnemonic} {cpu opcode : UInt8} {mode : Mode}
    (h : m.opcode? cpu mode = some opcode) : (mode, opcode) ∈ m.opcodes := by
  obtain ⟨hlookup, -⟩ := Option.filter_eq_some_iff.mp h
  obtain ⟨before, after, hsplit, -⟩ := List.lookup_eq_some_iff.mp hlookup
  rw [hsplit]
  exact List.mem_append_right _ List.mem_cons_self

/-- No two entries of the table have the same opcode. -/
theorem opcode?_unique {m : Mnemonic} (hm : m ∈ table) {cpu opcode : UInt8} {mode : Mode}
    (h : m.opcode? cpu mode = some opcode) {m' : Mnemonic} (hm' : m' ∈ table) {mode' : Mode}
    (h' : m'.opcode? cpu mode' = some opcode) : m' = m ∧ mode' = mode := by
  obtain ⟨hnodup, hdisjoint⟩ := List.nodup_flatMap.mp nodup_opcodes
  have hmem := mem_opcodes_of_opcode? h
  have hmem' := mem_opcodes_of_opcode? h'
  have hsame : m' = m := by
    by_contra hne
    have : Std.Symm (Function.onFun List.Disjoint fun m : Mnemonic => m.opcodes.map Prod.snd) :=
      ⟨fun _ _ => List.disjoint_symm⟩
    exact hdisjoint.forall hm' hm hne (List.mem_map.mpr ⟨_, hmem', rfl⟩)
      (List.mem_map.mpr ⟨_, hmem, rfl⟩)
  subst hsame
  have := List.inj_on_of_nodup_map (hnodup m' hm') hmem' hmem rfl
  exact ⟨rfl, congrArg Prod.fst this⟩

end Mnemonic

/-! ### Bytes of numbers -/

theorem toNat_byteOf (n : Int) : (LineM.byteOf n).toNat = (n % 256).toNat := by
  simp only [LineM.byteOf, UInt8.ofInt, UInt8.toNat_ofNat']
  omega

theorem eq_byteOf {n : Int} (h0 : 0 ≤ n) (h1 : n < 256) : n = (LineM.byteOf n).toNat := by
  rw [toNat_byteOf]
  omega

theorem eq_bytesOf {n : Int} (h0 : 0 ≤ n) (h1 : n < 65536) :
    n = (LineM.byteOf n).toNat + 256 * (LineM.byteOf (n / 256)).toNat := by
  rw [toNat_byteOf, toNat_byteOf]
  omega

theorem toInt_byteOf {n : Int} (h0 : -128 ≤ n) (h1 : n ≤ 127) : (LineM.byteOf n).toInt8.toInt = n := by
  have hsigned : (LineM.byteOf n).toInt8.toInt = ((LineM.byteOf n).toNat : Int).bmod 256 :=
    BitVec.toInt_eq_toNat_bmod _
  rw [hsigned, toNat_byteOf, Int.bmod]
  split <;> omega

theorem means_immediate (pc : Nat) {n : Int} (h0 : -128 ≤ n) (h1 : n ≤ 255) :
    Mode.immediate.Means pc [LineM.byteOf n] n := by
  refine ⟨h0, h1, ?_⟩
  rw [toNat_byteOf]
  omega

theorem means_relative {pc : Nat} {n : Int} (h0 : -128 ≤ n - (pc + 2)) (h1 : n - (pc + 2) ≤ 127) :
    Mode.relative.Means pc [LineM.byteOf (n - (pc + 2))] n := by
  show n = pc + 2 + (LineM.byteOf (n - (pc + 2))).toInt8.toInt
  rw [toInt_byteOf h0 h1]
  omega

/-! ### Encodings -/

/-- The bytes are those of a mnemonic with an operand: the opcode is that of no
other mnemonic and mode, the mode fits the operand and reads it back from the
bytes that follow, and an address takes one byte exactly when it can. -/
structure IsEncoding (m : Mnemonic) (cpu : UInt8) (pc : Nat) (a : Addressing) (mode : Mode)
    (opcode : UInt8) (rest : List UInt8) : Prop where
  decodes : ∀ m' ∈ Mnemonic.table, ∀ mode',
    m'.opcode? cpu mode' = some opcode ↔ m' = m ∧ mode' = mode
  size : rest.length + 1 = mode.size
  takes : mode.Takes a
  means : mode.Means pc rest a.number
  shortest : ∀ pair ∈ Mode.addressPairs, mode = pair.1 ∨ mode = pair.2 →
    (mode = pair.1 ↔ a.number < 256 ∧ m.allows cpu pair.1 = true)

/-- Whether a mode of the mnemonic is one for an operand. An address takes one byte
exactly when it can. -/
structure Fits (m : Mnemonic) (cpu : UInt8) (a : Addressing) (mode : Mode) : Prop where
  allowed : m.allows cpu mode = true
  takes : mode.Takes a
  shortest : ∀ pair ∈ Mode.addressPairs, mode = pair.1 ∨ mode = pair.2 →
    (mode = pair.1 ↔ a.number < 256 ∧ m.allows cpu pair.1 = true)

theorem fits_of {m : Mnemonic} {cpu opcode : UInt8} {a : Addressing} {mode : Mode}
    (hop : m.opcode? cpu mode = some opcode) (htakes : mode.Takes a)
    (hpairs : ∀ pair ∈ Mode.addressPairs, (mode = pair.1 → a.number < 256) ∧
      (mode = pair.2 → ¬ (a.number < 256 ∧ m.allows cpu pair.1 = true))) : Fits m cpu a mode := by
  have hallowed : m.allows cpu mode = true := by
    rw [Mnemonic.allows, hop]
    rfl
  refine ⟨hallowed, htakes, fun pair hpair h => ⟨?_, fun hshort => ?_⟩⟩
  · intro hmode
    exact ⟨(hpairs pair hpair).1 hmode, hmode ▸ hallowed⟩
  · exact h.resolve_right fun hmode => (hpairs pair hpair).2 hmode hshort

theorem isEncoding_of {m : Mnemonic} (hm : m ∈ Mnemonic.table) {cpu opcode : UInt8} {pc : Nat}
    {a : Addressing} {mode : Mode} {rest : List UInt8} (hop : m.opcode? cpu mode = some opcode)
    (hfits : Fits m cpu a mode) (hmeans : mode.Means pc rest a.number) :
    IsEncoding m cpu pc a mode opcode rest := by
  refine ⟨fun m' hm' mode' => ⟨m.opcode?_unique hm hop hm', ?_⟩, Mode.length_of_means hmeans,
    hfits.takes, hmeans, hfits.shortest⟩
  rintro ⟨rfl, rfl⟩
  exact hop

end Asm6502
