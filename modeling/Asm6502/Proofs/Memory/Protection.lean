/-
# Protected cells

A cell is protected once it is guarded or written in the pass. A write that meets
it is refused as a whole, so only two things can change its byte: a clear, which
is meant to, and a copy, which looks at no flag of the cells it is made to. A copy
brings the flags along with the byte, so it can also end the protection.

Key definitions: `Cell.IsProtected`, `ObjectCode.Request`, `ObjectCode.perform`,
`ObjectCode.Request.Clears`, `ObjectCode.Request.CopiesTo`.
Key theorems: `ObjectCode.isProtected_perform`, `ObjectCode.isProtected_performAll`,
`ObjectCode.perform_writesTo`, `ObjectCode.memory_protected`.
-/
import Asm6502.Proofs.Memory.Leftover

namespace Asm6502

/-- Whether writing to a cell is refused. -/
def Cell.IsProtected (c : Cell) : Prop := c.guarded = true ∨ c.used = true

instance (c : Cell) : Decidable c.IsProtected := inferInstanceAs (Decidable (_ ∨ _))

namespace ObjectCode

/-! ### Requests -/

/-- What can be asked of memory within a pass. -/
inductive Request
  | operation (op : Operation)
  /-- A soft clear. -/
  | release (start stop : Nat)
  | copy (start stop target : Nat)

/-- Carries out a request: the fault if there is one, and the object code after
it. -/
def perform (code : ObjectCode) : Request → Option MemoryFault × ObjectCode
  | .operation op => code.step op
  | .release start stop => (none, code.clear start stop false)
  | .copy start stop target =>
    match code.copy start stop target with
    | .ok after => (none, after)
    | .error fault => (some fault, code)

/-- The object code after requests. -/
def performAll (code : ObjectCode) : List Request → ObjectCode
  | [] => code
  | request :: requests => (code.perform request).2.performAll requests

namespace Request

/-- Whether a request clears the cell at an address, hard or softly. -/
def Clears (a : Nat) : Request → Prop
  | operation op => op.Clears a
  | release start stop => start ≤ a ∧ a < stop
  | copy _ _ _ => False

/-- Whether a request copies a cell to an address. -/
def CopiesTo (a : Nat) : Request → Prop
  | copy start stop target => copies start stop target = true ∧ target ≤ a ∧ a < target + (stop - start)
  | operation _ | release _ _ => False

/-- Whether a request neither clears the cell at an address nor copies one to it. -/
def Spares (a : Nat) (request : Request) : Prop := ¬ request.Clears a ∧ ¬ request.CopiesTo a

/-- Whether a request is to write at an address. -/
def WritesTo (code : ObjectCode) (a : Nat) : Request → Prop
  | operation (.write bytes _) => code.pc ≤ a ∧ a < code.pc + bytes.length
  | _ => False

end Request

/-! ### One request -/

variable {code : ObjectCode} {a : Nat}

/-- A write that meets a protected cell is refused and changes nothing. -/
theorem perform_writesTo (hprotected : (code.cell a).IsProtected) {request : Request}
    (hwrites : request.WritesTo code a) :
    ∃ fault, IsRefusal fault ∧ code.perform request = (some fault, code) := by
  rcases request with op | _ | _
  · rcases op with _ | _ | ⟨bytes, origin⟩ | _ | _
    · exact hwrites.elim
    · exact hwrites.elim
    · cases href : code.refusal bytes.length with
      | none =>
        obtain ⟨hguarded, hused⟩ := (refusal_eq_none_iff.mp href).2 a hwrites.1 hwrites.2
        rcases hprotected with h | h
        · rw [hguarded] at h
          cases h
        · rw [hused] at h
          cases h
      | some fault => exact ⟨fault, isRefusal_of_refusal href, write_refused href origin⟩
    · exact hwrites.elim
    · exact hwrites.elim
  · exact hwrites.elim
  · exact hwrites.elim

/-- A copy is carried out if both ranges fit, whatever the cells are that it is
made to. -/
theorem perform_copiesTo (ha : a < memorySize) {start stop target : Nat}
    (hcopies : (Request.copy start stop target).CopiesTo a) :
    (code.perform (.copy start stop target)).1 = none ∧
      (code.perform (.copy start stop target)).2.cell a = code.cell (start + (a - target)) := by
  obtain ⟨hcarried, hin⟩ := hcopies
  obtain ⟨b, hsource, -, hcell⟩ := code.cell_copy start stop target ha
  obtain rfl : start + (a - target) = b := by
    rw [source, if_pos ⟨hcarried, hin⟩] at hsource
    exact Option.some.inj hsource
  have hfits : ¬ (stop < start || stop > memorySize || target + (stop - start) > memorySize) = true := by
    simp only [copies, Bool.and_eq_true, decide_eq_true_eq] at hcarried
    simp only [Bool.or_eq_true, decide_eq_true_eq]
    omega
  rw [after, copy, if_neg hfits] at hcell
  rw [perform, copy, if_neg hfits]
  exact ⟨rfl, hcell⟩

theorem cell_release (ha : a < memorySize) {start stop : Nat} (hout : ¬ (start ≤ a ∧ a < stop)) :
    (code.clear start stop false).cell a = code.cell a := by
  have hmap : (code.clear start stop false).cell a =
      if start ≤ a ∧ a < min stop memorySize then (code.cell a).released else code.cell a :=
    Block.get_mapRange Cell.released code.memory start (min stop memorySize) ha
  rw [hmap, if_neg (by omega)]

theorem cell_perform_copy (ha : a < memorySize) {start stop target : Nat}
    (hcopies : ¬ (Request.copy start stop target).CopiesTo a) :
    (code.perform (.copy start stop target)).2.cell a = code.cell a := by
  obtain ⟨b, hsource, -, hcell⟩ := code.cell_copy start stop target ha
  have hout : ¬ (copies start stop target = true ∧ target ≤ a ∧ a < target + (stop - start)) := hcopies
  obtain rfl : a = b := by
    rw [source, if_neg hout] at hsource
    exact Option.some.inj hsource
  rw [← hcell, perform, after]
  cases code.copy start stop target <;> rfl

theorem isGuarded_step (ha : a < memorySize) (op : Operation) (hclears : ¬ op.Clears a)
    (hguarded : (code.cell a).guarded = true) : ((code.step op).2.cell a).guarded = true := by
  cases op with
  | setPc pc => exact hguarded
  | advance amount =>
    simp only [step, advance]
    split_ifs <;> exact hguarded
  | setGuard address =>
    simp only [step, setGuard]
    split_ifs with haddress
    · rw [cell, Block.get_set _ _ haddress ha]
      split_ifs with heq
      · rfl
      · exact hguarded
    · exact hguarded
  | clear start stop =>
    have hmap : (code.clear start stop true).cell a =
        if start ≤ a ∧ a < min stop memorySize then Cell.cleared else code.cell a :=
      Block.get_mapRange (fun _ => Cell.cleared) code.memory start (min stop memorySize) ha
    have hout : ¬ (start ≤ a ∧ a < min stop memorySize) := fun h => hclears ⟨h.1, by omega⟩
    rw [step, hmap, if_neg hout]
    exact hguarded
  | write bytes origin =>
    by_cases hin : code.pc ≤ a ∧ a < code.pc + bytes.length
    · have hwrites : Request.WritesTo code a (.operation (.write bytes origin)) := hin
      obtain ⟨fault, -, hrefused⟩ := perform_writesTo (.inl hguarded) hwrites
      have hwrite : code.write bytes origin = (some fault, code) := hrefused
      rw [step, hwrite]
      exact hguarded
    · rw [step, (write_isWhole code bytes origin).elsewhere a ha (by omega)]
      exact hguarded

/-- A protected cell keeps its byte and stays protected, unless it is cleared or a
cell is copied to its address. -/
theorem isProtected_perform (ha : a < memorySize) (hprotected : (code.cell a).IsProtected) {request : Request}
    (hspares : request.Spares a) :
    ((code.perform request).2.cell a).byte = (code.cell a).byte ∧
      ((code.perform request).2.cell a).IsProtected := by
  obtain ⟨hclears, hcopies⟩ := hspares
  cases request with
  | operation op =>
    have hkept : ((code.step op).2.cell a).byte = (code.cell a).byte ∧
        ((code.cell a).used = true → ((code.step op).2.cell a).used = true) := by
      rcases code.step_cell op ha with ⟨hcleared, -, -⟩ | ⟨-, hfree, byte, known, origin, -, hstores, hcell⟩ |
        ⟨-, -, guarded, hcell⟩
      · exact absurd hcleared hclears
      · -- the byte is stored by a write, which would have been refused
        have hmem : (a, byte, known) ∈ code.stores op := (hstores byte known).mpr ⟨rfl, rfl⟩
        cases op with
        | write bytes origin' =>
          obtain ⟨hcarried, i, rfl, hi⟩ := mem_stores_write.mp hmem
          have hlt := (List.getElem?_eq_some_iff.mp hi).1
          have hwrites : Request.WritesTo code (code.pc + i) (.operation (.write bytes origin')) :=
            ⟨by omega, by omega⟩
          obtain ⟨fault, hfault, hrefused⟩ := perform_writesTo hprotected hwrites
          have hwrite : code.write bytes origin' = (some fault, code) := hrefused
          rw [hwrite] at hcarried
          rcases hfault with rfl | rfl | rfl <;> simp [IsCarried] at hcarried
        | setPc pc => simp [stores] at hmem
        | advance amount => simp [stores] at hmem
        | setGuard address => simp [stores] at hmem
        | clear start stop => simp [stores] at hmem
      · rw [hcell]
        exact ⟨rfl, id⟩
    refine ⟨hkept.1, ?_⟩
    rcases hprotected with hguarded | hused
    · exact .inl (isGuarded_step ha op hclears hguarded)
    · exact .inr (hkept.2 hused)
  | release start stop =>
    rw [perform, cell_release ha hclears]
    exact ⟨rfl, hprotected⟩
  | copy start stop target =>
    rw [cell_perform_copy ha hcopies]
    exact ⟨rfl, hprotected⟩

/-! ### Any number of requests -/

theorem isProtected_performAll (ha : a < memorySize) : ∀ (requests : List Request) (code : ObjectCode),
    (code.cell a).IsProtected → (∀ request ∈ requests, request.Spares a) →
    ((code.performAll requests).cell a).byte = (code.cell a).byte ∧ ((code.performAll requests).cell a).IsProtected
  | [], _, hprotected, _ => ⟨rfl, hprotected⟩
  | request :: requests, code, hprotected, hspares => by
    obtain ⟨hbyte, hstays⟩ := isProtected_perform ha hprotected (hspares request List.mem_cons_self)
    obtain ⟨hbytes, hstill⟩ := isProtected_performAll ha requests (code.perform request).2 hstays
      fun later hlater => hspares later (List.mem_cons_of_mem request hlater)
    exact ⟨hbytes.trans hbyte, hstill⟩

/-- **Protection lasts until a clear or a copy.** From any object code and after any
requests that neither clear a protected cell nor copy over it, the cell has its byte
and is protected. A write that meets it then is refused and changes nothing, and any
request that changes its byte is a clear of the cell or a copy to it. Such a copy is
not refused: it puts the cell it copies in the place of the protected one. -/
theorem memory_protected (code : ObjectCode) {a : Nat} (ha : a < memorySize) (hprotected : (code.cell a).IsProtected)
    (requests : List Request) (hspares : ∀ request ∈ requests, request.Spares a) :
    ((code.performAll requests).cell a).byte = (code.cell a).byte ∧
    ((code.performAll requests).cell a).IsProtected ∧
    (∀ request, request.WritesTo (code.performAll requests) a →
      ∃ fault, IsRefusal fault ∧
        (code.performAll requests).perform request = (some fault, code.performAll requests)) ∧
    (∀ request, (((code.performAll requests).perform request).2.cell a).byte ≠ (code.cell a).byte →
      request.Clears a ∨ request.CopiesTo a) ∧
    ∀ start stop target, (Request.copy start stop target).CopiesTo a →
      ((code.performAll requests).perform (.copy start stop target)).1 = none ∧
      ((code.performAll requests).perform (.copy start stop target)).2.cell a =
        (code.performAll requests).cell (start + (a - target)) := by
  obtain ⟨hbyte, hstill⟩ := isProtected_performAll ha requests code hprotected hspares
  refine ⟨hbyte, hstill, fun request hwrites => perform_writesTo hstill hwrites, fun request hchanged => ?_,
    fun start stop target hcopies => perform_copiesTo ha hcopies⟩
  by_contra hneither
  exact hchanged ((isProtected_perform ha hstill (not_or.mp hneither)).1.trans hbyte)

/-- A guard and a byte behind it. -/
def guardedSample : ObjectCode := (empty.setGuard 0x3000).performAll [.operation (.setPc 0x2FFF)]

/-- An instruction of two bytes that meets a guard is refused, whatever was done to
other cells before. -/
theorem memory_protected_guard :
    (guardedSample.cell 0x3000).IsProtected ∧
    ((guardedSample.performAll [.release 0 0x3000, .copy 0 16 0x3001]).cell 0x3000).IsProtected ∧
    ∃ fault, IsRefusal fault ∧
      (guardedSample.performAll [.release 0 0x3000, .copy 0 16 0x3001]).perform
          (.operation (.write [(0xA9, true), (0, true)] ⟨0, 0, 0, none⟩)) =
        (some fault, guardedSample.performAll [.release 0 0x3000, .copy 0 16 0x3001]) := by
  have hprotected : (guardedSample.cell 0x3000).IsProtected := by decide +kernel
  have hspares : ∀ request ∈ [Request.release 0 0x3000, .copy 0 16 0x3001], request.Spares 0x3000 := by
    simp [Request.Spares, Request.Clears, Request.CopiesTo]
  obtain ⟨-, hstill, hwrites, -, -⟩ := memory_protected guardedSample (by decide) hprotected _ hspares
  refine ⟨hprotected, hstill, hwrites _ ?_⟩
  change 0x2FFF ≤ 0x3000 ∧ 0x3000 < 0x2FFF + 2
  omega

/-- A byte that was written is overwritten by a copy, without a fault, and its cell
is free for writing again. -/
theorem copy_overwrites_written :
    let code := (empty.perform (.operation (.write [(1, true)] ⟨0, 0, 0, none⟩))).2
    (code.cell 0).byte = 1 ∧ (code.cell 0).IsProtected ∧
    (code.perform (.copy 16 17 0)).1 = none ∧
    ((code.perform (.copy 16 17 0)).2.cell 0).byte = 0 ∧
    ¬ ((code.perform (.copy 16 17 0)).2.cell 0).IsProtected := by
  decide +kernel

end ObjectCode
end Asm6502
