/-
# What is left over in memory

Within a pass object code changes by the operations that a program asks for, by
copying, and by changes to its registers that touch no cell. A cell that was
neither written nor cleared since the pass began still holds what the pass before
has left in it, and copying carries such a cell elsewhere. `leftover` follows a
cell back to the place where it stood when the pass began, if it is such a cell.

A cell that is left over counts as unused, whatever its byte. The other unused
cells were cleared, so their byte is zero.

Key definitions: `ObjectCode.Action`, `ObjectCode.after`,
`ObjectCode.leftover`.
Key theorems: `ObjectCode.cell_after`, `ObjectCode.cell_afterAll`,
`ObjectCode.byte_of_unused`, `ObjectCode.isClean_afterAll_iff`.
-/
import Asm6502.Proofs.Memory.Consistency

namespace Asm6502
namespace ObjectCode

/-- A change of object code within a pass. -/
inductive Action
  | operation (op : Operation)
  | copy (start stop target : Nat)
  /-- The calls, the processor and the characters are set. -/
  | set (callSites : Array Origin) (cpu : UInt8) (chars : Block (Option UInt8) 8)

/-- The object code after a change. -/
def after (code : ObjectCode) : Action → ObjectCode
  | .operation op => (code.step op).2
  | .copy start stop target => (code.copy start stop target).toOption.getD code
  | .set callSites cpu chars => { code with callSites, cpu, chars }

/-- The object code after changes. -/
def afterAll (code : ObjectCode) : List Action → ObjectCode
  | [] => code
  | action :: actions => (code.after action).afterAll actions

theorem afterAll_append (xs ys : List Action) (code : ObjectCode) :
    code.afterAll (xs ++ ys) = (code.afterAll xs).afterAll ys := by
  induction xs generalizing code with
  | nil => rfl
  | cons action xs ih => exact ih _

/-- Whether a copy is carried out. -/
def copies (start stop target : Nat) : Bool :=
  start ≤ stop && stop ≤ memorySize && target + (stop - start) ≤ memorySize

instance (op : Operation) (a : Nat) : Decidable (op.Clears a) :=
  match op with
  | .clear start stop => inferInstanceAs (Decidable (start ≤ a ∧ a < stop))
  | .setPc _ | .advance _ | .write _ _ | .setGuard _ => inferInstanceAs (Decidable False)

/-- Where the cell at an address stood before a change, none if it is new. -/
def source (code : ObjectCode) (action : Action) (a : Nat) : Option Nat :=
  match action with
  | .operation op => if op.Clears a ∨ (code.stores op).any (·.1 == a) then none else some a
  | .copy start stop target =>
    if copies start stop target ∧ target ≤ a ∧ a < target + (stop - start) then some (start + (a - target))
    else some a
  | .set _ _ _ => some a

/-- Where the cell at an address stood before changes, none if it has been
written or cleared since. -/
def leftover (code : ObjectCode) : List Action → Nat → Option Nat
  | [], a => some a
  | action :: actions, a => ((code.after action).leftover actions a).bind (code.source action)

theorem cell_copy (code : ObjectCode) (start stop target : Nat) {a : Nat} (ha : a < memorySize) :
    ∃ b, code.source (.copy start stop target) a = some b ∧ b < memorySize ∧
      (code.after (.copy start stop target)).cell a = code.cell b := by
  have hcopies : copies start stop target = true ↔
      start ≤ stop ∧ stop ≤ memorySize ∧ target + (stop - start) ≤ memorySize := by
    simp [copies, and_assoc]
  by_cases hcarried : copies start stop target = true
  · obtain ⟨hle, hstop, hfit⟩ := hcopies.mp hcarried
    have hslice : (code.memory.slice start stop).length = stop - start := by simp [Block.slice]
    have hafter : (code.after (.copy start stop target)).cell a =
        (code.memory.setAll target (code.memory.slice start stop)).get a := by
      rw [after, copy, if_neg (by simp; omega)]
      rfl
    rw [hafter, Block.get_setAll _ _ (by rw [hslice]; exact hfit) ha]
    by_cases hin : target ≤ a ∧ a < target + (stop - start)
    · refine ⟨start + (a - target), if_pos ⟨hcarried, hin⟩, by omega, ?_⟩
      rw [if_pos hin.1, Block.getElem?_slice _ _ _ (by omega)]
      rfl
    · refine ⟨a, if_neg fun h => hin h.2, ha, ?_⟩
      by_cases hle' : target ≤ a
      · rw [if_pos hle', List.getElem?_eq_none (by omega)]
        rfl
      · rw [if_neg hle']
        rfl
  · refine ⟨a, if_neg fun h => hcarried h.1, ha, ?_⟩
    rw [hcopies] at hcarried
    rw [after, copy, if_pos (by simp; omega)]
    rfl

/-- What a change does to the cell at an address: the cell is new, and then used
or cleared, or it stood somewhere before, and then at most its guard has
changed. -/
theorem cell_after (code : ObjectCode) (action : Action) {a : Nat} (ha : a < memorySize) :
    (code.source action a = none ∧
      (((code.after action).cell a).used = true ∨ (code.after action).cell a = Cell.cleared)) ∨
    ∃ b guarded, code.source action a = some b ∧ b < memorySize ∧
      (code.after action).cell a = { code.cell b with guarded } := by
  cases action with
  | operation op =>
    have hstores : (code.stores op).any (·.1 == a) = true ↔ ∃ byte known, (a, byte, known) ∈ code.stores op := by
      simp only [List.any_eq_true, beq_iff_eq]
      constructor
      · rintro ⟨⟨_, byte, known⟩, hmem, rfl⟩
        exact ⟨byte, known, hmem⟩
      · rintro ⟨byte, known, hmem⟩
        exact ⟨_, hmem, rfl⟩
    rcases code.step_cell op ha with ⟨hclears, -, hcell⟩ | ⟨-, -, byte, known, origin, -, hmem, hcell⟩ |
      ⟨hclears, hmem, guarded, hcell⟩
    · exact Or.inl ⟨if_pos (Or.inl hclears), Or.inr hcell⟩
    · refine Or.inl ⟨if_pos (Or.inr (hstores.mpr ⟨byte, known, (hmem _ _).mpr ⟨rfl, rfl⟩⟩)), Or.inl ?_⟩
      rw [after, hcell]
      rfl
    · refine Or.inr ⟨a, guarded, if_neg ?_, ha, hcell⟩
      rintro (h | h)
      · exact hclears h
      · obtain ⟨byte, known, h⟩ := hstores.mp h
        exact hmem byte known h
  | copy start stop target =>
    obtain ⟨b, hb, hlt, hcell⟩ := code.cell_copy start stop target ha
    exact Or.inr ⟨b, (code.cell b).guarded, hb, hlt, hcell⟩
  | set callSites cpu chars => exact Or.inr ⟨a, (code.cell a).guarded, rfl, ha, rfl⟩

/-- A cell that is left over is what it was, but for its guard; any other cell is
used or has the byte zero. -/
theorem cell_afterAll (actions : List Action) (code : ObjectCode) {a : Nat} (ha : a < memorySize) :
    (code.leftover actions a = none ∧
      (((code.afterAll actions).cell a).used = true ∨ ((code.afterAll actions).cell a).byte = 0)) ∨
    ∃ b guarded, code.leftover actions a = some b ∧ b < memorySize ∧
      (code.afterAll actions).cell a = { code.cell b with guarded } := by
  induction actions generalizing code with
  | nil => exact Or.inr ⟨a, (code.cell a).guarded, rfl, ha, rfl⟩
  | cons action actions ih =>
    rcases ih (code.after action) with ⟨hnone, hcell⟩ | ⟨b, guarded, hsome, hlt, hcell⟩
    · exact Or.inl ⟨by rw [leftover, hnone]; rfl, hcell⟩
    -- the cell stood at `b` after the first change: where before it?
    have hleftover : code.leftover (action :: actions) a = code.source action b := by
      rw [leftover, hsome]
      rfl
    rw [hleftover, afterAll, hcell]
    rcases code.cell_after action hlt with ⟨hnone, hnew⟩ | ⟨b', guarded', hsource, hlt', hcell'⟩
    · refine Or.inl ⟨hnone, hnew.imp_right fun h => ?_⟩
      rw [h]
      rfl
    · refine Or.inr ⟨b', guarded, hsource, hlt', ?_⟩
      rw [hcell']

theorem lt_of_leftover {actions : List Action} {code : ObjectCode} {a b : Nat} (ha : a < memorySize)
    (h : code.leftover actions a = some b) : b < memorySize := by
  rcases code.cell_afterAll actions ha with ⟨hnone, -⟩ | ⟨b', guarded, hsome, hlt, -⟩
  · rw [hnone] at h
    cases h
  · obtain rfl : b' = b := Option.some.inj (hsome.symm.trans h)
    exact hlt

/-- Memory in which a byte that is not zero was written in the current pass. -/
def IsClean (code : ObjectCode) : Prop :=
  ∀ a < memorySize, (code.cell a).used = false → (code.cell a).byte = 0

theorem isClean_empty (firstPass : Bool) (cpu : UInt8) : (empty.beginPass firstPass cpu).IsClean := by
  intro a _ _
  rw [cell_beginPass]
  rfl

theorem IsClean.afterAll {code : ObjectCode} (h : code.IsClean) (actions : List Action) :
    (code.afterAll actions).IsClean := by
  intro a ha hused
  rcases code.cell_afterAll actions ha with ⟨-, hcell⟩ | ⟨b, guarded, -, hlt, hcell⟩
  · exact hcell.resolve_left (by rw [hused]; exact Bool.false_ne_true)
  · rw [hcell] at hused ⊢
    exact h b hlt hused

/-- After a pass over what another has left, an unused cell has the byte that is
left over there, or zero if none is. -/
theorem byte_of_unused {code : ObjectCode} {firstPass : Bool} {cpu : UInt8} {actions : List Action} {a : Nat}
    (ha : a < memorySize) (hused : (((code.beginPass firstPass cpu).afterAll actions).cell a).used = false) :
    (((code.beginPass firstPass cpu).afterAll actions).cell a).byte =
      (((code.beginPass firstPass cpu).leftover actions a).map fun b => (code.cell b).byte).getD 0 := by
  rcases (code.beginPass firstPass cpu).cell_afterAll actions ha with ⟨hnone, hcell⟩ | ⟨b, guarded, hsome, -, hcell⟩
  · rw [hnone]
    exact hcell.resolve_left (by rw [hused]; exact Bool.false_ne_true)
  · rw [hsome, hcell, cell_beginPass]
    rfl

/-- Memory is clean after a pass exactly if no byte that is left over from the
one before differs from zero. -/
theorem isClean_afterAll_iff {code : ObjectCode} {firstPass : Bool} {cpu : UInt8} {actions : List Action} :
    ((code.beginPass firstPass cpu).afterAll actions).IsClean ↔
      ∀ a < memorySize, ∀ b, (code.beginPass firstPass cpu).leftover actions a = some b → (code.cell b).byte = 0 := by
  constructor
  · intro hclean a ha b hb
    rcases (code.beginPass firstPass cpu).cell_afterAll actions ha with ⟨hnone, -⟩ | ⟨b', guarded, hsome, -, hcell⟩
    · rw [hnone] at hb
      cases hb
    · obtain rfl : b' = b := Option.some.inj (hsome.symm.trans hb)
      have hbyte := hclean a ha
      rw [hcell, cell_beginPass] at hbyte
      exact hbyte rfl
  · intro hzero a ha hused
    rw [byte_of_unused ha hused]
    cases hb : (code.beginPass firstPass cpu).leftover actions a with
    | none => rfl
    | some b => exact hzero a ha b hb

end ObjectCode
end Asm6502
