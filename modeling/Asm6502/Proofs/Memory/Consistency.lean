/-
# The second pass is compared with the first

The flags of a cell are four bits that operations set and erase. Here they are
tied to the history that they summarise: which bytes the first pass stored in
the cell, whether it was sure of them, and whether the cell was cleared. The
first pass stores at most once in a cell that is never cleared, because a used
cell refuses a write and only a clear frees it (`FirstPass`). The second pass
finds that byte in the cell until it writes there itself (`SecondPass`). So a
write contradicts a cell exactly when the history says so, and the report is
made for the first such write of the second pass and never again.

Key definitions: `ObjectCode.Operation`, `ObjectCode.step`, `ObjectCode.run`,
`ObjectCode.written`, `ObjectCode.Deviates`.
Key theorems: `ObjectCode.step_cell`, `ObjectCode.firstPass_run`,
`ObjectCode.secondPass_run`, `ObjectCode.secondPass_consistency`.
-/
import Mathlib.Data.List.Induction
import Asm6502.Proofs.Memory.Write

namespace Asm6502
namespace ObjectCode

/-! ### Operations and their history -/

/-- What can be asked of object code within a pass. A write of one, two or three
bytes is that of a byte of data or of an instruction. -/
inductive Operation
  | setPc (pc : Nat)
  | advance (amount : Nat)
  | write (bytes : List (UInt8 × Bool)) (origin : Origin)
  | setGuard (address : Nat)
  /-- A hard clear. -/
  | clear (start stop : Nat)

/-- Carries out an operation: the fault if there is one, and the object code
after it. -/
def step (code : ObjectCode) : Operation → Option MemoryFault × ObjectCode
  | .setPc pc => (none, code.setPc pc)
  | .advance amount =>
    match code.advance amount with
    | .ok after => (none, after)
    | .error fault => (some fault, code)
  | .write bytes origin => code.write bytes origin
  | .setGuard address => (none, code.setGuard address)
  | .clear start stop => (none, code.clear start stop true)

/-- The object code after operations. -/
def run (code : ObjectCode) : List Operation → ObjectCode
  | [] => code
  | op :: ops => (code.step op).2.run ops

/-- What operations return, in order. -/
def faults (code : ObjectCode) : List Operation → List (Option MemoryFault)
  | [] => []
  | op :: ops => (code.step op).1 :: (code.step op).2.faults ops

/-- A write with this outcome has stored its bytes. -/
def IsCarried (fault : Option MemoryFault) : Prop := fault = none ∨ fault = some .inconsistentCode

instance (fault : Option MemoryFault) : Decidable (IsCarried fault) :=
  inferInstanceAs (Decidable (_ ∨ _))

/-- The bytes that an operation stores, each with its address and whether it is
known. -/
def stores (code : ObjectCode) : Operation → List (Nat × UInt8 × Bool)
  | .write bytes origin =>
    if IsCarried (code.write bytes origin).1 then
      bytes.mapIdx fun i p => (code.pc + i, p.1, p.2)
    else []
  | _ => []

/-- The bytes that operations store, in order. -/
def written (code : ObjectCode) : List Operation → List (Nat × UInt8 × Bool)
  | [] => []
  | op :: ops => code.stores op ++ (code.step op).2.written ops

/-- Whether an operation clears a cell. -/
def Operation.Clears (a : Nat) : Operation → Prop
  | .clear start stop => start ≤ a ∧ a < stop
  | _ => False

/-- Whether one of the operations clears a cell. -/
def Cleared (ops : List Operation) (a : Nat) : Prop := ∃ op ∈ ops, op.Clears a

theorem cleared_append {xs ys : List Operation} {a : Nat} :
    Cleared (xs ++ ys) a ↔ Cleared xs a ∨ Cleared ys a := by
  simp only [Cleared, List.mem_append, or_and_right, exists_or]

theorem cleared_singleton {op : Operation} {a : Nat} : Cleared [op] a ↔ op.Clears a := by
  simp [Cleared]

theorem run_append (xs ys : List Operation) (code : ObjectCode) :
    code.run (xs ++ ys) = (code.run xs).run ys := by
  induction xs generalizing code with
  | nil => rfl
  | cons op xs ih => exact ih _

theorem mem_stores_write {code : ObjectCode} {bytes : List (UInt8 × Bool)} {origin : Origin}
    {a : Nat} {byte : UInt8} {known : Bool} :
    (a, byte, known) ∈ code.stores (.write bytes origin) ↔
      IsCarried (code.write bytes origin).1 ∧ ∃ i, a = code.pc + i ∧ bytes[i]? = some (byte, known) := by
  simp only [stores]
  split_ifs with h
  · simp only [h, true_and, List.mem_mapIdx, Prod.mk.injEq, List.getElem?_eq_some_iff]
    constructor
    · rintro ⟨i, hi, rfl, h1, h2⟩
      exact ⟨i, rfl, hi, Prod.ext h1 h2⟩
    · rintro ⟨i, rfl, hi, h⟩
      exact ⟨i, hi, rfl, by rw [h], by rw [h]⟩
  · simp [h]

theorem isCarried_write_iff {code : ObjectCode} {bytes : List (UInt8 × Bool)} {origin : Origin} :
    IsCarried (code.write bytes origin).1 ↔ code.refusal bytes.length = none := by
  cases href : code.refusal bytes.length with
  | some fault =>
    rw [write_refused href]
    rcases isRefusal_of_refusal href with rfl | rfl | rfl <;> simp [IsCarried]
  | none =>
    rw [write_carried href]
    split_ifs <;> simp [IsCarried]

/-! ### What an operation does to a cell and to the registers -/

/-- What an operation does to the cell at an address: it clears the cell, stores
a byte in it, which then was free, or changes at most its guard. -/
theorem step_cell (code : ObjectCode) (op : Operation) {a : Nat} (ha : a < memorySize) :
    (op.Clears a ∧ (∀ byte known, (a, byte, known) ∉ code.stores op) ∧
      (code.step op).2.cell a = Cell.cleared) ∨
    (¬ op.Clears a ∧ (code.cell a).used = false ∧ ∃ byte known origin, (∃ bytes, op = .write bytes origin) ∧
      (∀ b k, (a, b, k) ∈ code.stores op ↔ b = byte ∧ k = known) ∧
      (code.step op).2.cell a = (code.cell a).written code.firstPass byte known origin) ∨
    (¬ op.Clears a ∧ (∀ byte known, (a, byte, known) ∉ code.stores op) ∧
      ∃ guarded, (code.step op).2.cell a = { code.cell a with guarded }) := by
  cases op with
  | setPc pc => exact Or.inr (Or.inr ⟨id, by simp [stores], _, rfl⟩)
  | advance amount =>
    refine Or.inr (Or.inr ⟨id, by simp [stores], (code.cell a).guarded, ?_⟩)
    simp only [step, advance]
    split_ifs <;> rfl
  | setGuard address =>
    have hcell : (code.step (.setGuard address)).2.cell a =
        if a = address then { code.cell a with guarded := true } else code.cell a := by
      simp only [step, setGuard]
      split_ifs with hlt heq heq
      · subst heq
        exact (Block.get_set _ _ ha ha).trans (if_pos rfl)
      · exact (Block.get_set _ _ hlt ha).trans (if_neg heq)
      · omega
      · rfl
    refine Or.inr (Or.inr ⟨id, by simp [stores], ?_⟩)
    rw [hcell]
    split_ifs
    · exact ⟨true, rfl⟩
    · exact ⟨(code.cell a).guarded, rfl⟩
  | clear start stop =>
    have hcell : (code.step (.clear start stop)).2.cell a =
        if start ≤ a ∧ a < min stop memorySize then Cell.cleared else code.cell a := by
      simp only [step, clear, cell, if_true]
      exact Block.get_mapRange _ _ _ _ ha
    by_cases h : start ≤ a ∧ a < stop
    · exact Or.inl ⟨h, by simp [stores], by rw [hcell, if_pos (by omega)]⟩
    · refine Or.inr (Or.inr ⟨h, by simp [stores], (code.cell a).guarded, ?_⟩)
      rw [hcell, if_neg (by omega)]
  | write bytes origin =>
    cases href : code.refusal bytes.length with
    | some fault =>
      have hnot : ¬ IsCarried (code.write bytes origin).1 := by
        rw [isCarried_write_iff, href]
        simp
      refine Or.inr (Or.inr ⟨id, by simp [stores, hnot], (code.cell a).guarded, ?_⟩)
      simp only [step, write_refused href]
    | none =>
      obtain ⟨hfit, hfree⟩ := refusal_eq_none_iff.mp href
      have hcarried : IsCarried (code.write bytes origin).1 := isCarried_write_iff.mpr href
      have hcell : (code.step (.write bytes origin)).2.cell a = (code.putAll origin bytes).cell a := by
        simp only [step, write_carried href]
        split_ifs <;> rfl
      by_cases hin : code.pc ≤ a ∧ a < code.pc + bytes.length
      · obtain ⟨i, rfl⟩ : ∃ i, a = code.pc + i := ⟨a - code.pc, by omega⟩
        obtain ⟨⟨byte, known⟩, hi⟩ : ∃ p, bytes[i]? = some p :=
          ⟨bytes[i], List.getElem?_eq_getElem (by omega)⟩
        refine Or.inr (Or.inl ⟨id, (hfree _ hin.1 hin.2).2, byte, known, origin, ⟨bytes, rfl⟩, fun b k => ?_, ?_⟩)
        · rw [mem_stores_write]
          constructor
          · rintro ⟨-, j, hj, h⟩
            obtain rfl : i = j := by omega
            simpa [hi, eq_comm] using h
          · rintro ⟨rfl, rfl⟩
            exact ⟨hcarried, i, rfl, hi⟩
        · rw [hcell, cell_putAll_inside origin bytes code hfit hi]
      · refine Or.inr (Or.inr ⟨id, fun byte known h => ?_, (code.cell a).guarded, ?_⟩)
        · obtain ⟨-, i, rfl, hi⟩ := mem_stores_write.mp h
          have := (List.getElem?_eq_some_iff.mp hi).1
          omega
        · rw [hcell, cell_putAll_outside origin ha bytes code hfit (by omega)]

theorem step_firstPass (code : ObjectCode) (op : Operation) :
    (code.step op).2.firstPass = code.firstPass := by
  cases op with
  | setPc pc => rfl
  | advance amount =>
    simp only [step, advance]
    split_ifs <;> rfl
  | setGuard address =>
    simp only [step, setGuard]
    split_ifs <;> rfl
  | clear start stop => rfl
  | write bytes origin =>
    cases href : code.refusal bytes.length with
    | some fault => simp only [step, write_refused href]
    | none =>
      simp only [step, write_carried href]
      split_ifs <;> exact putAll_firstPass origin bytes code

theorem step_reported (code : ObjectCode) (op : Operation) :
    (code.step op).2.inconsistencyReported =
      (code.inconsistencyReported || (code.step op).1 == some .inconsistentCode) := by
  cases op with
  | setPc pc => simp [step, setPc]
  | advance amount =>
    simp only [step, advance]
    split_ifs <;> simp
  | setGuard address =>
    simp only [step, setGuard]
    split_ifs <;> simp
  | clear start stop => simp [step, clear]
  | write bytes origin =>
    cases href : code.refusal bytes.length with
    | some fault =>
      simp only [step, write_refused href]
      rcases isRefusal_of_refusal href with rfl | rfl | rfl <;> simp
    | none =>
      simp only [step, write_carried href]
      split_ifs <;> simp [putAll_reported]

/-- A write is reported exactly when it is carried out in the second pass,
contradicts a cell and no write was reported before. -/
theorem write_inconsistent_iff {code : ObjectCode} {bytes : List (UInt8 × Bool)} {origin : Origin} :
    (code.write bytes origin).1 = some .inconsistentCode ↔
      IsCarried (code.write bytes origin).1 ∧ code.firstPass = false ∧
        code.contradicted code.pc bytes = true ∧ code.inconsistencyReported = false := by
  rw [isCarried_write_iff]
  cases href : code.refusal bytes.length with
  | some fault =>
    rw [write_refused href]
    rcases isRefusal_of_refusal href with rfl | rfl | rfl <;> simp
  | none =>
    rw [write_carried href]
    cases hrep : code.reports bytes with
    | true =>
      simp only [reports, Bool.and_eq_true, Bool.not_eq_true'] at hrep
      simp [hrep]
    | false =>
      constructor
      · intro h
        cases h
      rintro ⟨-, h1, h2, h3⟩
      simp [reports, h1, h2, h3] at hrep

theorem step_inconsistent {code : ObjectCode} {op : Operation}
    (h : (code.step op).1 = some .inconsistentCode) :
    code.firstPass = false ∧ code.inconsistencyReported = false := by
  cases op with
  | setPc pc => simp [step] at h
  | advance amount =>
    simp only [step, advance] at h
    split_ifs at h
    simp at h
  | setGuard address => simp [step] at h
  | clear start stop => simp [step] at h
  | write bytes origin =>
    obtain ⟨-, h1, -, h2⟩ := write_inconsistent_iff.mp h
    exact ⟨h1, h2⟩

/-! ### The first pass -/

/-- What the cells say after operations of the first pass: a cell that was
cleared is exempt, a cell that was not holds the byte stored in it, if any was,
and whether it was known. -/
structure FirstPass (stored : List (Nat × UInt8 × Bool)) (ops : List Operation)
    (code : ObjectCode) : Prop where
  firstPass : code.firstPass = true
  unreported : code.inconsistencyReported = false
  exempt : ∀ a < memorySize, Cleared ops a → (code.cell a).exempt = true
  byte : ∀ a < memorySize, ¬ Cleared ops a → ∀ byte known, (a, byte, known) ∈ stored →
    (code.cell a).byte = byte ∧ (code.cell a).used = true ∧
      (code.cell a).check = known ∧ (code.cell a).exempt = !known
  blank : ∀ a < memorySize, ¬ Cleared ops a → (∀ byte known, (a, byte, known) ∉ stored) →
    (code.cell a).used = false ∧ (code.cell a).check = false ∧ (code.cell a).exempt = false

theorem firstPass_empty : FirstPass [] [] empty := by
  refine ⟨rfl, rfl, ?_, ?_, fun a _ _ _ => ⟨rfl, rfl, rfl⟩⟩
  · rintro a - ⟨op, hop, -⟩
    cases hop
  · intro a _ _ byte known h
    cases h

theorem firstPass_step {stored : List (Nat × UInt8 × Bool)} {ops : List Operation}
    {code : ObjectCode} (h : FirstPass stored ops code) (op : Operation) :
    FirstPass (stored ++ code.stores op) (ops ++ [op]) (code.step op).2 := by
  have hreport : (code.step op).1 ≠ some .inconsistentCode := fun hc => by
    have := (step_inconsistent hc).1
    rw [h.firstPass] at this
    cases this
  refine ⟨(step_firstPass code op).trans h.firstPass, ?_, fun a ha => ?_, fun a ha => ?_,
    fun a ha => ?_⟩
  · rw [step_reported, h.unreported]
    simpa using hreport
  all_goals
    simp only [cleared_append, cleared_singleton, not_or, List.mem_append]
    rcases step_cell code op ha with ⟨hc, hs, e⟩ | ⟨hc, hu, b, k, o, -, hs, e⟩ | ⟨hc, hs, g, e⟩ <;> rw [e]
  -- a cleared cell
  · exact fun _ => rfl
  · rintro (hd | hd)
    · simp [Cell.written, h.exempt a ha hd]
    · exact absurd hd hc
  · rintro (hd | hd)
    · exact h.exempt a ha hd
    · exact absurd hd hc
  -- a cell with a byte in it
  · exact fun hd => absurd hc hd.2
  · intro hd byte known hm
    have hnone : ∀ byte known, (a, byte, known) ∉ stored := fun byte known hm => by
      have := (h.byte a ha hd.1 byte known hm).2.1
      rw [hu] at this
      cases this
    obtain ⟨rfl, rfl⟩ := (hs byte known).mp (hm.resolve_left (hnone byte known))
    obtain ⟨-, hcheck, hexempt⟩ := h.blank a ha hd.1 hnone
    simp [Cell.written, hcheck, hexempt, h.firstPass]
  · exact fun hd byte known hm => h.byte a ha hd.1 byte known (hm.resolve_right (hs byte known))
  -- a cell never written
  · exact fun hd => absurd hc hd.2
  · exact fun _ hm => absurd ((hs b k).mpr ⟨rfl, rfl⟩) (hm b k).2
  · exact fun hd hm => h.blank a ha hd.1 fun byte known => (hm byte known).1

theorem firstPass_run : ∀ (ops : List Operation) {stored : List (Nat × UInt8 × Bool)}
    {before : List Operation} {code : ObjectCode}, FirstPass stored before code →
    FirstPass (stored ++ code.written ops) (before ++ ops) (code.run ops)
  | [], _, _, _, h => by simpa [written, run] using h
  | op :: ops, _, _, code, h => by
    have := firstPass_run ops (firstPass_step h op)
    simpa [written, run] using this

/-! ### The second pass -/

/-- What the cells say after operations of the second pass, given what the first
pass stored and cleared: a cell that was cleared in either is exempt; one that
was not is marked as the first pass left it, and holds the byte of the first
pass until it is used. -/
structure SecondPass (stored : List (Nat × UInt8 × Bool)) (first ops : List Operation)
    (code : ObjectCode) : Prop where
  firstPass : code.firstPass = false
  exempt : ∀ a < memorySize, Cleared first a ∨ Cleared ops a → (code.cell a).exempt = true
  marks : ∀ a < memorySize, ¬ Cleared first a → ¬ Cleared ops a →
    ∀ byte known, (a, byte, known) ∈ stored →
      (code.cell a).check = known ∧ (code.cell a).exempt = !known ∧
        ((code.cell a).used = false → (code.cell a).byte = byte)
  blank : ∀ a < memorySize, ¬ Cleared first a → ¬ Cleared ops a →
    (∀ byte known, (a, byte, known) ∉ stored) → (code.cell a).check = false

theorem cell_beginPass (code : ObjectCode) (firstPass : Bool) (cpu : UInt8) (a : Nat) :
    (code.beginPass firstPass cpu).cell a = (code.cell a).renewed :=
  Block.get_map _ _ _

theorem secondPass_beginPass {stored : List (Nat × UInt8 × Bool)} {first : List Operation}
    {code : ObjectCode} (h : FirstPass stored first code) (cpu : UInt8) :
    SecondPass stored first [] (code.beginPass false cpu) := by
  have hnil (a : Nat) : ¬ Cleared [] a := fun ⟨_, hop, _⟩ => by cases hop
  refine ⟨rfl, fun a ha hc => ?_, fun a ha hc _ byte known hm => ?_, fun a ha hc _ hm => ?_⟩ <;>
    rw [cell_beginPass]
  · exact h.exempt a ha (hc.resolve_right (hnil a))
  · obtain ⟨hbyte, -, hcheck, hexempt⟩ := h.byte a ha hc byte known hm
    exact ⟨hcheck, hexempt, fun _ => hbyte⟩
  · exact (h.blank a ha hc hm).2.1

theorem secondPass_step {stored : List (Nat × UInt8 × Bool)} {first ops : List Operation}
    {code : ObjectCode} (h : SecondPass stored first ops code) (op : Operation) :
    SecondPass stored first (ops ++ [op]) (code.step op).2 := by
  refine ⟨(step_firstPass code op).trans h.firstPass, fun a ha => ?_, fun a ha => ?_, fun a ha => ?_⟩
  all_goals
    simp only [cleared_append, cleared_singleton, not_or]
    rcases step_cell code op ha with ⟨hc, -, e⟩ | ⟨hc, -, b, k, o, -, -, e⟩ | ⟨hc, -, g, e⟩ <;> rw [e]
  · exact fun _ => rfl
  · intro hd
    have := h.exempt a ha (hd.imp_right fun hd => hd.resolve_right hc)
    simp [Cell.written, this]
  · exact fun hd => h.exempt a ha (hd.imp_right fun hd => hd.resolve_right hc)
  · exact fun _ hd => absurd hc hd.2
  · intro h1 hd byte known hm
    obtain ⟨hcheck, hexempt, -⟩ := h.marks a ha h1 hd.1 byte known hm
    simp [Cell.written, hcheck, hexempt, h.firstPass]
  · exact fun h1 hd => h.marks a ha h1 hd.1
  · exact fun _ hd => absurd hc hd.2
  · intro h1 hd hm
    simp [Cell.written, h.blank a ha h1 hd.1 hm, h.firstPass]
  · exact fun h1 hd => h.blank a ha h1 hd.1

theorem secondPass_run : ∀ (ops : List Operation) {stored : List (Nat × UInt8 × Bool)}
    {first before : List Operation} {code : ObjectCode}, SecondPass stored first before code →
    SecondPass stored first (before ++ ops) (code.run ops)
  | [], _, _, _, _, h => by simpa [run] using h
  | op :: ops, _, _, _, code, h => by
    have := secondPass_run ops (secondPass_step h op)
    simpa [run] using this

/-- A free cell of the second pass contradicts a byte exactly when the first
pass stored another one, was sure of it, and neither pass cleared the cell. -/
theorem SecondPass.contradicts_iff {stored : List (Nat × UInt8 × Bool)} {first ops : List Operation}
    {code : ObjectCode} (h : SecondPass stored first ops code) {a : Nat} (ha : a < memorySize)
    (hfree : (code.cell a).used = false) (byte : UInt8) :
    (code.cell a).contradicts byte = true ↔
      ∃ sure, (a, sure, true) ∈ stored ∧ ¬ Cleared first a ∧ ¬ Cleared ops a ∧ byte ≠ sure := by
  simp only [Cell.contradicts, Bool.and_eq_true, Bool.not_eq_true', bne_iff_ne, ne_eq]
  constructor
  · rintro ⟨⟨hcheck, hexempt⟩, hne⟩
    obtain ⟨h1, h2⟩ : ¬ Cleared first a ∧ ¬ Cleared ops a := not_or.mp fun hc => by
      rw [h.exempt a ha hc] at hexempt
      cases hexempt
    by_cases hm : ∃ sure known, (a, sure, known) ∈ stored
    · obtain ⟨sure, known, hm⟩ := hm
      obtain ⟨e1, -, e3⟩ := h.marks a ha h1 h2 sure known hm
      obtain rfl : known = true := e1.symm.trans hcheck
      exact ⟨sure, hm, h1, h2, fun e => hne ((e3 hfree).trans e.symm)⟩
    · have := h.blank a ha h1 h2 fun sure known hm' => hm ⟨sure, known, hm'⟩
      rw [this] at hcheck
      cases hcheck
  · rintro ⟨sure, hm, h1, h2, hne⟩
    obtain ⟨e1, e2, e3⟩ := h.marks a ha h1 h2 sure true hm
    exact ⟨⟨e1, e2⟩, fun e => hne (e.symm.trans (e3 hfree))⟩

/-! ### The report -/

/-- The object code after the operations of a whole first pass and some of the
second. -/
def afterPasses (first : List Operation) (cpu : UInt8) (second : List Operation) : ObjectCode :=
  ((empty.run first).beginPass false cpu).run second

/-- A write in the second pass deviates from the first: it is carried out, and
one of its bytes differs from a byte that the first pass stored there and was
sure of, in a cell that neither pass has cleared so far. -/
def Deviates (first : List Operation) (cpu : UInt8) (before : List Operation)
    (bytes : List (UInt8 × Bool)) (origin : Origin) : Prop :=
  IsCarried ((afterPasses first cpu before).write bytes origin).1 ∧
    ∃ i byte known sure, bytes[i]? = some (byte, known) ∧
      ((afterPasses first cpu before).pc + i, sure, true) ∈ empty.written first ∧
      ¬ Cleared first ((afterPasses first cpu before).pc + i) ∧
      ¬ Cleared before ((afterPasses first cpu before).pc + i) ∧ byte ≠ sure

theorem secondPass_afterPasses (first : List Operation) (cpu : UInt8) (before : List Operation) :
    SecondPass (empty.written first) first before (afterPasses first cpu before) := by
  have h1 := firstPass_run first firstPass_empty
  have h2 := secondPass_run before (secondPass_beginPass h1 cpu)
  simpa [afterPasses] using h2

theorem deviates_iff {first : List Operation} {cpu : UInt8} {before : List Operation}
    {bytes : List (UInt8 × Bool)} {origin : Origin} :
    Deviates first cpu before bytes origin ↔
      IsCarried ((afterPasses first cpu before).write bytes origin).1 ∧
        (afterPasses first cpu before).contradicted (afterPasses first cpu before).pc bytes = true := by
  refine and_congr_right fun hcarried => ?_
  obtain ⟨hfit, hfree⟩ := refusal_eq_none_iff.mp (isCarried_write_iff.mp hcarried)
  have hcell {i : Nat} {p : UInt8 × Bool} (hi : bytes[i]? = some p) :=
    have hlt := (List.getElem?_eq_some_iff.mp hi).1
    (secondPass_afterPasses first cpu before).contradicts_iff (a := (afterPasses first cpu before).pc + i)
      (by omega) (hfree _ (by omega) (by omega)).2
  rw [contradicted_iff]
  constructor
  · rintro ⟨i, byte, known, sure, hi, h⟩
    exact ⟨i, byte, known, hi, (hcell hi byte).mpr ⟨sure, h⟩⟩
  · rintro ⟨i, byte, known, hi, h⟩
    obtain ⟨sure, h⟩ := (hcell hi byte).mp h
    exact ⟨i, byte, known, sure, hi, h⟩

theorem afterPasses_snoc (first : List Operation) (cpu : UInt8) (before : List Operation)
    (op : Operation) :
    afterPasses first cpu (before ++ [op]) = ((afterPasses first cpu before).step op).2 := by
  simp only [afterPasses, run_append]
  rfl

/-- The report is on record exactly when an earlier write of the second pass
deviates. -/
theorem reported_iff (first : List Operation) (cpu : UInt8) (before : List Operation) :
    (afterPasses first cpu before).inconsistencyReported = true ↔
      ∃ earlier bytes origin later, before = earlier ++ .write bytes origin :: later ∧
        Deviates first cpu earlier bytes origin := by
  induction before using List.reverseRecOn with
  | nil =>
    have : (afterPasses first cpu []).inconsistencyReported = false :=
      (firstPass_run first firstPass_empty).unreported
    simp [this]
  | append_singleton before op ih =>
    rw [afterPasses_snoc, step_reported, Bool.or_eq_true, beq_iff_eq, ih]
    constructor
    · rintro (⟨earlier, bytes, origin, later, rfl, h⟩ | h)
      · exact ⟨earlier, bytes, origin, later ++ [op], by simp, h⟩
      · cases op with
        | write bytes origin =>
          obtain ⟨h1, -, h2, -⟩ := write_inconsistent_iff.mp h
          exact ⟨before, bytes, origin, [], rfl, deviates_iff.mpr ⟨h1, h2⟩⟩
        | setPc pc => simp [step] at h
        | advance amount =>
          simp only [step, advance] at h
          split_ifs at h
          simp at h
        | setGuard address => simp [step] at h
        | clear start stop => simp [step] at h
    · rintro ⟨earlier, bytes, origin, later, hsplit, h⟩
      rcases List.eq_nil_or_concat later with rfl | ⟨later', last, rfl⟩
      · -- the last operation is the deviating one: reported now, or before
        obtain ⟨rfl, hop⟩ := List.append_inj' hsplit rfl
        obtain rfl : op = .write bytes origin := by simpa using hop
        rw [← ih]
        cases hrep : (afterPasses first cpu before).inconsistencyReported with
        | true => exact Or.inl rfl
        | false =>
          obtain ⟨h1, h2⟩ := deviates_iff.mp h
          exact Or.inr (write_inconsistent_iff.mpr
            ⟨h1, (secondPass_afterPasses first cpu before).firstPass, h2, hrep⟩)
      · rw [List.concat_eq_append, ← List.cons_append, ← List.append_assoc] at hsplit
        obtain ⟨hsplit, -⟩ := List.append_inj' hsplit rfl
        exact Or.inl ⟨earlier, bytes, origin, later', hsplit, h⟩

theorem count_faults_reported : ∀ (ops : List Operation) {code : ObjectCode},
    code.firstPass = true ∨ code.inconsistencyReported = true →
    (code.faults ops).count (some .inconsistentCode) = 0
  | [], _, _ => rfl
  | op :: ops, code, h => by
    have hne : (code.step op).1 ≠ some .inconsistentCode := fun hc => by
      obtain ⟨h1, h2⟩ := step_inconsistent hc
      simp [h1, h2] at h
    rw [faults, List.count_cons_of_ne hne]
    apply count_faults_reported ops
    rw [step_firstPass, step_reported]
    exact h.imp_right fun h => by simp [h]

theorem count_faults_le : ∀ (ops : List Operation) (code : ObjectCode),
    (code.faults ops).count (some .inconsistentCode) ≤ 1
  | [], _ => Nat.zero_le _
  | op :: ops, code => by
    rw [faults]
    by_cases hc : (code.step op).1 = some .inconsistentCode
    · have : (code.step op).2.inconsistencyReported = true := by rw [step_reported]; simp [hc]
      have hnone := count_faults_reported ops (Or.inr this)
      rw [hc, List.count_cons_self]
      omega
    · rw [List.count_cons_of_ne hc]
      exact count_faults_le ops _

/-- **The second pass is compared with the first.** Of the writes in the second
pass, exactly the first that deviates from the first pass is reported as
inconsistent, so over both passes there is at most one report. A write that is
reported or accepted is carried out whole, and one that is refused changes
nothing, in both passes. -/
theorem secondPass_consistency (first : List Operation) (cpu : UInt8) (second : List Operation)
    (bytes : List (UInt8 × Bool)) (origin : Origin) :
    (((afterPasses first cpu second).write bytes origin).1 = some .inconsistentCode ↔
      Deviates first cpu second bytes origin ∧
        ∀ earlier bytes' origin' later, second = earlier ++ .write bytes' origin' :: later →
          ¬ Deviates first cpu earlier bytes' origin') ∧
    (empty.faults first ++ ((empty.run first).beginPass false cpu).faults second).count
      (some .inconsistentCode) ≤ 1 ∧
    WriteIsWhole (empty.run first) bytes ((empty.run first).write bytes origin) ∧
    WriteIsWhole (afterPasses first cpu second) bytes
      ((afterPasses first cpu second).write bytes origin) := by
  refine ⟨?_, ?_, write_isWhole _ bytes origin, write_isWhole _ bytes origin⟩
  · have hpass := (secondPass_afterPasses first cpu second).firstPass
    have hrep := reported_iff first cpu second
    rw [write_inconsistent_iff, deviates_iff]
    constructor
    · rintro ⟨h1, -, h2, h3⟩
      refine ⟨⟨h1, h2⟩, fun earlier bytes' origin' later hsplit hd => ?_⟩
      rw [hrep.mpr ⟨earlier, bytes', origin', later, hsplit, hd⟩] at h3
      cases h3
    · rintro ⟨⟨h1, h2⟩, h3⟩
      refine ⟨h1, hpass, h2, Bool.eq_false_iff.mpr fun hr => ?_⟩
      obtain ⟨earlier, bytes', origin', later, hsplit, hd⟩ := hrep.mp hr
      exact h3 earlier bytes' origin' later hsplit hd
  · rw [List.count_append, count_faults_reported first (Or.inl rfl), Nat.zero_add]
    exact count_faults_le second _

/-- Two bytes of the first pass. -/
def twoBytesSample : List Operation := [.write [(1, true)] ⟨0, 0, 0, none⟩, .write [(2, true)] ⟨0, 0, 0, none⟩]

/-- The first byte that is changed in the second pass is reported, the next is not. -/
theorem secondPass_consistency_changed :
    Deviates twoBytesSample 0 [] [(3, true)] ⟨0, 0, 0, none⟩ ∧
      ((afterPasses twoBytesSample 0 []).write [(3, true)] ⟨0, 0, 0, none⟩).1 = some .inconsistentCode ∧
      ((afterPasses twoBytesSample 0 [.write [(3, true)] ⟨0, 0, 0, none⟩]).write [(4, true)] ⟨0, 0, 0, none⟩).1 ≠
        some .inconsistentCode := by
  have hreported : ((afterPasses twoBytesSample 0 []).write [(3, true)] ⟨0, 0, 0, none⟩).1 = some .inconsistentCode := by
    decide +kernel
  obtain ⟨hfirst, -⟩ := secondPass_consistency twoBytesSample 0 [] [(3, true)] ⟨0, 0, 0, none⟩
  obtain ⟨hnext, -⟩ := secondPass_consistency twoBytesSample 0 [.write [(3, true)] ⟨0, 0, 0, none⟩] [(4, true)] ⟨0, 0, 0, none⟩
  have hdeviates := (hfirst.mp hreported).1
  exact ⟨hdeviates, hreported, fun hagain => (hnext.mp hagain).2 [] _ _ [] rfl hdeviates⟩

end ObjectCode
end Asm6502
