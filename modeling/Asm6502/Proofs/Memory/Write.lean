/-
# What a write does

A write is either refused, and then it changes nothing, or it is carried out:
every byte is in its cell, the cells are used, all other cells are as before,
and the program counter has moved past the bytes. Which of the two, and why it
is refused, is read off the cells before the write.

Key definitions: `ObjectCode.putAll`, `ObjectCode.WriteIsWhole`.
Key theorems: `ObjectCode.refusal_eq_none_iff`, `ObjectCode.write_carried`,
`ObjectCode.contradicted_iff`, `ObjectCode.write_isWhole`.
-/
import Asm6502.Memory.ObjectCode
import Asm6502.Proofs.Memory.Block

namespace Asm6502
namespace ObjectCode

/-- The object code with bytes put one after the other. -/
def putAll (code : ObjectCode) (origin : Origin) (bytes : List (UInt8 × Bool)) : ObjectCode :=
  bytes.foldl (fun code p => code.put origin p.1 p.2) code

theorem putAll_cons (code : ObjectCode) (origin : Origin) (p : UInt8 × Bool)
    (bytes : List (UInt8 × Bool)) :
    code.putAll origin (p :: bytes) = (code.put origin p.1 p.2).putAll origin bytes := rfl

theorem putAll_firstPass (origin : Origin) : ∀ (bytes : List (UInt8 × Bool)) (code : ObjectCode),
    (code.putAll origin bytes).firstPass = code.firstPass
  | [], _ => rfl
  | p :: bytes, code => by rw [putAll_cons, putAll_firstPass origin bytes]; rfl

theorem putAll_reported (origin : Origin) : ∀ (bytes : List (UInt8 × Bool)) (code : ObjectCode),
    (code.putAll origin bytes).inconsistencyReported = code.inconsistencyReported
  | [], _ => rfl
  | p :: bytes, code => by rw [putAll_cons, putAll_reported origin bytes]; rfl

theorem putAll_pc (origin : Origin) : ∀ (bytes : List (UInt8 × Bool)) (code : ObjectCode),
    (code.putAll origin bytes).pc = code.pc + bytes.length
  | [], _ => rfl
  | p :: bytes, code => by
    rw [putAll_cons, putAll_pc origin bytes, List.length_cons]
    simp only [put]
    omega

theorem cell_put (code : ObjectCode) (origin : Origin) (byte : UInt8) (known : Bool) {a : Nat}
    (hpc : code.pc < memorySize) (ha : a < memorySize) :
    (code.put origin byte known).cell a =
      if a = code.pc then (code.cell a).written code.firstPass byte known origin
      else code.cell a := by
  simp only [put, cell]
  rw [Block.get_set _ _ hpc ha]
  split_ifs with h
  · rw [h]
  · rfl

/-- Bytes that are put leave every other cell as it is. -/
theorem cell_putAll_outside (origin : Origin) {a : Nat} (ha : a < memorySize) :
    ∀ (bytes : List (UInt8 × Bool)) (code : ObjectCode), code.pc + bytes.length ≤ memorySize →
      a < code.pc ∨ code.pc + bytes.length ≤ a →
      (code.putAll origin bytes).cell a = code.cell a
  | [], _, _, _ => rfl
  | p :: bytes, code, hfit, hout => by
    rw [List.length_cons] at hfit hout
    have hpc : (code.put origin p.1 p.2).pc = code.pc + 1 := rfl
    rw [putAll_cons, cell_putAll_outside origin ha bytes _ (by omega) (by omega),
      cell_put code origin _ _ (by omega) ha, if_neg (by omega)]

/-- A byte that is put is written to its cell. -/
theorem cell_putAll_inside (origin : Origin) :
    ∀ (bytes : List (UInt8 × Bool)) (code : ObjectCode), code.pc + bytes.length ≤ memorySize →
      ∀ {i : Nat} {byte : UInt8} {known : Bool}, bytes[i]? = some (byte, known) →
      (code.putAll origin bytes).cell (code.pc + i) =
        (code.cell (code.pc + i)).written code.firstPass byte known origin
  | [], _, _, _, _, _, h => by simp at h
  | p :: bytes, code, hfit, i, byte, known, h => by
    rw [List.length_cons] at hfit
    have hpc : (code.put origin p.1 p.2).pc = code.pc + 1 := rfl
    rw [putAll_cons]
    cases i with
    | zero =>
      obtain rfl : p = (byte, known) := by simpa using h
      rw [cell_putAll_outside origin (by omega) bytes _ (by omega) (by omega),
        cell_put code origin _ _ (by omega) (by omega), if_pos (Nat.add_zero _)]
    | succ i =>
      have hlt : i < bytes.length := Nat.succ_lt_succ_iff.mp (List.getElem?_eq_some_iff.mp h).1
      have hi : code.pc + (i + 1) = (code.put origin p.1 p.2).pc + i := by omega
      rw [hi, cell_putAll_inside origin bytes _ (by omega) h, cell_put code origin _ _ (by omega)
        (by omega), if_neg (by omega)]
      rfl

/-! ### Refusal -/

theorem refusal_eq_none_iff {code : ObjectCode} {n : Nat} :
    code.refusal n = none ↔ code.pc + n ≤ memorySize ∧
      ∀ a, code.pc ≤ a → a < code.pc + n →
        (code.cell a).guarded = false ∧ (code.cell a).used = false := by
  have hany (p : Cell → Bool) : (code.memory.slice code.pc (code.pc + n)).any p = false ↔
      ∀ a, code.pc ≤ a → a < code.pc + n → p (code.cell a) = false := by
    simp only [List.any_eq_false, Bool.not_eq_true, Block.mem_slice]
    constructor
    · intro h a h1 h2
      exact h _ ⟨a, h1, h2, rfl⟩
    · rintro h _ ⟨a, h1, h2, rfl⟩
      exact h a h1 h2
  unfold refusal
  simp only
  split_ifs with hfit hguard hused
  · simp only [false_iff]
    omega
  · simp only [false_iff]
    rintro ⟨-, h⟩
    rw [(hany Cell.guarded).mpr fun a h1 h2 => (h a h1 h2).1] at hguard
    cases hguard
  · simp only [false_iff]
    rintro ⟨-, h⟩
    rw [(hany Cell.used).mpr fun a h1 h2 => (h a h1 h2).2] at hused
    cases hused
  · simp only [true_iff]
    rw [Bool.not_eq_true] at hguard hused
    exact ⟨by omega, fun a h1 h2 =>
      ⟨(hany Cell.guarded).mp hguard a h1 h2, (hany Cell.used).mp hused a h1 h2⟩⟩

/-- The faults of a write that is not carried out. -/
def IsRefusal (fault : MemoryFault) : Prop :=
  fault = .outOfMemory ∨ fault = .guardHit ∨ fault = .overlap

theorem isRefusal_of_refusal {code : ObjectCode} {n : Nat} {fault : MemoryFault}
    (h : code.refusal n = some fault) : IsRefusal fault := by
  unfold refusal at h
  simp only at h
  split_ifs at h <;> cases h <;> simp [IsRefusal]

/-! ### Writes -/

theorem contradicted_iff {code : ObjectCode} : ∀ {bytes : List (UInt8 × Bool)} {pc : Nat},
    code.contradicted pc bytes = true ↔
      ∃ i byte known, bytes[i]? = some (byte, known) ∧ (code.cell (pc + i)).contradicts byte = true
  | [], pc => by simp [contradicted]
  | (byte, known) :: bytes, pc => by
    simp only [contradicted, Bool.or_eq_true, @contradicted_iff _ bytes]
    constructor
    · rintro (h | ⟨i, b, k, hi, h⟩)
      · exact ⟨0, byte, known, rfl, h⟩
      · exact ⟨i + 1, b, k, hi, by rwa [Nat.add_right_comm, Nat.add_assoc] at h⟩
    · rintro ⟨i, b, k, hi, h⟩
      cases i with
      | zero =>
        obtain ⟨rfl, rfl⟩ : byte = b ∧ known = k := by simpa using hi
        exact Or.inl h
      | succ i => exact Or.inr ⟨i, b, k, hi, by rwa [Nat.add_right_comm, Nat.add_assoc]⟩

/-- Whether a write is to be reported as inconsistent. -/
def reports (code : ObjectCode) (bytes : List (UInt8 × Bool)) : Bool :=
  !code.firstPass && code.contradicted code.pc bytes && !code.inconsistencyReported

theorem write_refused {code : ObjectCode} {bytes : List (UInt8 × Bool)} {fault : MemoryFault}
    (h : code.refusal bytes.length = some fault) (origin : Origin) :
    code.write bytes origin = (some fault, code) := by
  simp only [write, h]

theorem write_carried {code : ObjectCode} {bytes : List (UInt8 × Bool)}
    (h : code.refusal bytes.length = none) (origin : Origin) :
    code.write bytes origin =
      if code.reports bytes then
        (some .inconsistentCode, { code.putAll origin bytes with inconsistencyReported := true })
      else (none, code.putAll origin bytes) := by
  simp only [write, h]
  rfl

/-- What a write with an outcome leaves behind: one that is refused changes
nothing, any other one stores all its bytes in used cells, moves the program
counter past them and changes no other cell. -/
structure WriteIsWhole (code : ObjectCode) (bytes : List (UInt8 × Bool))
    (outcome : Option MemoryFault × ObjectCode) : Prop where
  fault_mem : outcome.1 = none ∨ outcome.1 = some .inconsistentCode ∨
    ∃ fault, IsRefusal fault ∧ outcome.1 = some fault
  unchanged : ∀ fault, IsRefusal fault → outcome.1 = some fault → outcome.2 = code
  stored : outcome.1 = none ∨ outcome.1 = some .inconsistentCode →
    ∀ i byte known, bytes[i]? = some (byte, known) →
      (outcome.2.cell (code.pc + i)).byte = byte ∧ (outcome.2.cell (code.pc + i)).used = true
  advanced : outcome.1 = none ∨ outcome.1 = some .inconsistentCode →
    outcome.2.pc = code.pc + bytes.length
  elsewhere : ∀ a, a < memorySize → a < code.pc ∨ code.pc + bytes.length ≤ a →
    outcome.2.cell a = code.cell a

theorem write_isWhole (code : ObjectCode) (bytes : List (UInt8 × Bool)) (origin : Origin) :
    WriteIsWhole code bytes (code.write bytes origin) := by
  cases href : code.refusal bytes.length with
  | some fault =>
    rw [write_refused href]
    have hfault := isRefusal_of_refusal href
    have hnot : ¬ (some fault = none ∨ some fault = some MemoryFault.inconsistentCode) := by
      rcases hfault with rfl | rfl | rfl <;> simp
    exact ⟨Or.inr (Or.inr ⟨fault, hfault, rfl⟩), fun _ _ _ => rfl, fun h => absurd h hnot,
      fun h => absurd h hnot, fun _ _ _ => rfl⟩
  | none =>
    obtain ⟨hfit, -⟩ := refusal_eq_none_iff.mp href
    -- the report changes no cell and no register
    obtain ⟨hfault, hcell, hpc⟩ :
        ((code.write bytes origin).1 = none ∨
          (code.write bytes origin).1 = some .inconsistentCode) ∧
        (code.write bytes origin).2.memory = (code.putAll origin bytes).memory ∧
        (code.write bytes origin).2.pc = (code.putAll origin bytes).pc := by
      rw [write_carried href]
      split_ifs <;> simp
    have hcell (a : Nat) : (code.write bytes origin).2.cell a = (code.putAll origin bytes).cell a :=
      congrArg (·.get a) hcell
    refine ⟨hfault.imp_right Or.inl, fun fault hr h => ?_, fun _ i byte known hi => ?_, fun _ => ?_,
      fun a ha hout => ?_⟩
    · rcases hfault with h' | h' <;> rw [h'] at h
      · cases h
      · cases h
        rcases hr with hr | hr | hr <;> cases hr
    · rw [hcell, cell_putAll_inside origin bytes code hfit hi]
      exact ⟨rfl, rfl⟩
    · rw [hpc, putAll_pc]
    · rw [hcell, cell_putAll_outside origin ha bytes code hfit hout]

end ObjectCode
end Asm6502
