/-
# Instructions are written as they are read

An instruction that is accepted after the first pass is in memory in full, at
the program counter, and can be read back from there: its opcode stands for
the mnemonic and a mode for the operand, and the bytes after it for the number.
An instruction that is refused leaves the object code as it was; only a report
of inconsistent code comes with the bytes written.

Each way to read an operand has a specification of its own. All of them say
the same of what is written, by `wp_emit`.

Key definitions: `ObjectCode.Gains`, `LineM.Encoded`, `LineM.Spares`.
Key theorems: `LineM.wp_emit`, `LineM.wp_indirect`, `LineM.wp_address`,
`LineM.instruction_encoding`.
-/
import Asm6502.Proofs.Instruction.Reading

namespace Asm6502

/-- Bytes were written at the program counter, which moved past them, and nothing
else was. -/
structure ObjectCode.Gains (code : ObjectCode) (bytes : List UInt8) (after : ObjectCode) : Prop where
  stored : ∀ i byte, bytes[i]? = some byte →
    (after.cell (code.pc + i)).byte = byte ∧ (after.cell (code.pc + i)).used = true
  elsewhere : ∀ a < memorySize, a < code.pc ∨ code.pc + bytes.length ≤ a → after.cell a = code.cell a
  advanced : after.pc = code.pc + bytes.length

/-- Whether an operand has no number. -/
def Addressing.isBare : Addressing → Bool
  | .nothing | .accumulator => true
  | _ => false

namespace LineM

/-- A mode has been taken that is one for the operand, and room for an instruction
in it. If the number is known, the object code has gained that instruction. -/
def Encoded (m : Mnemonic) (known : Bool) (code : ObjectCode) (a : Addressing) (after : LineState) : Prop :=
  ∃ mode, Fits m code.cpu a mode ∧ after.run.code.pc = code.pc + mode.size ∧
    (known = true → ∃ opcode rest, IsEncoding m code.cpu code.pc a mode opcode rest ∧
      code.Gains (opcode :: rest) after.run.code)

/-- The instruction is placed, and the generator is left alone. -/
def Emits (m : Mnemonic) (known : Bool) (s : LineState) (a : Addressing) (after : LineState) : Prop :=
  Encoded m known s.run.code a after ∧ after.run.random = s.run.random

/-- A number is written at a place of the line, and evaluating it there leaves the
generator as given. -/
def valueLeaving (env : Setting) (s : LineState) (random : Random) (c : Cursor) (n : Int) (stop : Cursor) : Prop :=
  ∃ e after, Expr.evaluate (context env s) env.allowance.evals c (evaluation s) = .ok e after ∧
    e.value.integer = .ok n ∧ e.stop = stop ∧ after.random = random

theorem valueAt_of_valueLeaving {env : Setting} {s : LineState} {random : Random} (c : Cursor) (n : Int)
    (stop : Cursor) (h : valueLeaving env s random c n stop) : valueAt env s c n stop := by
  obtain ⟨e, after, he, hn, hstop, -⟩ := h
  exact ⟨e, after, he, hn, hstop⟩

/-- Whether a number is known as it has to be, which is after the first pass. -/
def IsSure (s : LineState) (known : Bool) : Prop := s.run.pass ≠ .first → known = true

/-- The object code is as it was, unless inconsistent code is reported. -/
def Spares (code : ObjectCode) (stop : Stop) (after : LineState) : Prop :=
  (∃ column, stop = .problem ⟨.memory .inconsistentCode, column⟩) ∨ after.run.code = code

theorem spares_same {s : LineState} (stop : Stop) : Spares s.run.code stop s := Or.inr rfl

variable {m : Mnemonic} {env : Setting} {s : LineState} {start : Nat}

@[simp]
theorem wp_opcode? (m : Mnemonic) (mode : Mode) {Q : Option UInt8 → LineState → Prop}
    {E : Stop → LineState → Prop} :
    wp (opcode? m mode) env s Q E ↔ Q (m.opcode? s.run.code.cpu mode) s := Iff.rfl

/-! ### Writing -/

/-- Writing an opcode of the mnemonic and the bytes of its operand. -/
theorem wp_emit (mode : Mode) (a : Addressing) (rest : List UInt8) {opcode : UInt8} {known : Bool}
    (hm : m ∈ Mnemonic.table) (hop : m.opcode? s.run.code.cpu mode = some opcode) (htakes : mode.Takes a)
    (hsize : rest.length + 1 = mode.size) (hmeans : known = true → mode.Means s.run.code.pc rest a.number)
    (hpairs : ∀ pair ∈ Mode.addressPairs, (mode = pair.1 → a.number < 256) ∧
      (mode = pair.2 → ¬ (a.number < 256 ∧ m.allows s.run.code.cpu pair.1 = true))) :
    wp (write ((opcode, true) :: rest.map fun byte => (byte, known)) start) env s
      (fun _ after => Emits m known s a after) (Spares s.run.code) := by
  rw [wp_write]
  have hwhole := s.run.code.write_isWhole ((opcode, true) :: rest.map fun byte => (byte, known))
    (s.walk.buffer.origin env.index start)
  generalize s.run.code.write ((opcode, true) :: rest.map fun byte => (byte, known))
    (s.walk.buffer.origin env.index start) = outcome at hwhole
  obtain ⟨fault, code⟩ := outcome
  cases fault with
  | none =>
    have hfits := fits_of hop htakes hpairs
    have hpc : code.pc = s.run.code.pc + mode.size := by
      rw [hwhole.advanced (Or.inl rfl), List.length_cons, List.length_map, hsize]
    refine ⟨⟨mode, hfits, hpc, fun hknown => ⟨opcode, rest, isEncoding_of hm hop hfits (hmeans hknown), ?_, ?_, ?_⟩⟩,
      rfl⟩
    · intro i byte hi
      refine hwhole.stored (Or.inl rfl) i byte true ?_
      cases i with
      | zero => simpa using hi
      | succ i => simpa [hknown] using hi
    · intro a ha hout
      exact hwhole.elsewhere a ha (by simpa using hout)
    · rw [List.length_cons, hsize]
      exact hpc
  | some fault =>
    rcases hwhole.fault_mem with h | h | ⟨fault', hrefusal, h⟩
    · cases h
    · cases h
      exact Or.inl ⟨start, rfl⟩
    · exact Or.inr (hwhole.unchanged fault' hrefusal h)

/-- A mode that is not for an address. -/
theorem unpaired {mode : Mode} (h : ∀ pair ∈ Mode.addressPairs, mode ≠ pair.1 ∧ mode ≠ pair.2)
    {P Q : Mode × Mode → Prop} :
    ∀ pair ∈ Mode.addressPairs, (mode = pair.1 → P pair) ∧ (mode = pair.2 → Q pair) :=
  fun pair hpair => ⟨fun hmode => absurd hmode (h pair hpair).1, fun hmode => absurd hmode (h pair hpair).2⟩

theorem wp_checkZeroPage {n : Int} {known : Bool} {column : Nat} {Q : Unit → LineState → Prop}
    {E : Stop → LineState → Prop} (hQ : (known = true → 0 ≤ n ∧ n < 256) → Q () s) (hE : ∀ stop, E stop s) :
    wp (checkZeroPage n known column) env s Q E := by
  simp only [checkZeroPage, wp_ite, wp_fail, wp_pure]
  split_ifs with h
  · exact hE _
  · refine hQ fun hknown => ?_
    simp only [hknown, Bool.true_and, Bool.or_eq_true, decide_eq_true_eq] at h
    omega

theorem wp_checkAddress {n : Int} {known : Bool} {column : Nat} {Q : Unit → LineState → Prop}
    {E : Stop → LineState → Prop} (hQ : (known = true → 0 ≤ n ∧ n < 65536) → Q () s) (hE : ∀ stop, E stop s) :
    wp (checkAddress n known column) env s Q E := by
  simp only [checkAddress, wp_ite, wp_fail, wp_pure]
  split_ifs with h
  · exact hE _
  · refine hQ fun hknown => ?_
    simp only [hknown, Bool.true_and, Bool.or_eq_true, decide_eq_true_eq] at h
    omega

/-! ### Operands without an address -/

theorem wp_implied (hm : m ∈ Mnemonic.table) :
    wp (implied m start) env s (fun _ after => Emits m true s .nothing after)
      (Spares s.run.code) := by
  simp only [implied, wp_bind, wp_opcode?]
  split
  · rename_i hop
    exact wp_emit .implied .nothing [] hm hop trivial rfl (fun _ => trivial) (unpaired (by decide))
  · rename_i hop
    exact wp_emit .accumulator .nothing [] hm hop trivial rfl (fun _ => trivial) (unpaired (by decide))
  · exact spares_same _

theorem wp_accumulator (hm : m ∈ Mnemonic.table) {opcode : UInt8}
    (hop : m.opcode? s.run.code.cpu .accumulator = some opcode) :
    wp (accumulator opcode start) env s (fun _ after => Emits m true s .accumulator after)
      (Spares s.run.code) := by
  simp only [accumulator, wp_bind, wp_column, wp_advance, wp_pushPart]
  refine wp_expectEnd (fun _ => ?_) fun _ => Or.inr rfl
  exact wp_emit .accumulator .accumulator [] hm hop trivial rfl (fun _ => trivial) (unpaired (by decide))

theorem wp_immediate (hm : m ∈ Mnemonic.table) (hpeek : s.cursor.skipBlanks.peek = some '#') :
    wp (immediate m start) env { s with cursor := s.cursor.skipBlanks }
      (fun _ after => ∃ n known, ReadsAs (valueLeaving env s after.run.random) s.cursor (.immediate n) ∧
        IsSure s known ∧ Encoded m known s.run.code (.immediate n) after)
      (Spares s.run.code) := by
  simp only [immediate, wp_bind, wp_column, wp_opcode?]
  split
  · exact Or.inr rfl
  · rename_i opcode hop
    simp only [wp_bind, wp_advance, wp_evaluate]
    refine ⟨fun e after he => ?_, fun _ _ _ => Or.inr rfl⟩
    simp only [wp_pushPart, wp_ofFault]
    refine ⟨fun n hn => wp_expectEnd (fun hend => ?_) fun _ => Or.inr rfl, fun _ _ => Or.inr rfl⟩
    simp only [Bool.and_eq_true, decide_eq_true_eq, wp_ite, wp_bind, wp_fail]
    split_ifs with hlarge hnegative
    · exact Or.inr rfl
    · exact Or.inr rfl
    · have hbounds (hknown : e.known = true) : -128 ≤ n ∧ n ≤ 255 := by
        simp only [hknown, true_and] at hlarge hnegative
        omega
      refine wp_imp (wp_emit .immediate (.immediate n) [byteOf n] hm hop trivial rfl
        (fun hknown => means_immediate _ (hbounds hknown).1 (hbounds hknown).2) (unpaired (by decide)))
        fun _ _ h => ⟨n, e.known, ?_, fun hpass => Expr.evaluate_known hpass he, h.1⟩
      exact .immediate ⟨⟨'#', by simp, hpeek⟩, rfl⟩ ⟨e, after, he, hn, rfl, h.2.symm⟩ (by simpa using hend)

/-- The distance that a branch is written with is the one to its target, but in the
first pass. -/
theorem wp_branch (hm : m ∈ Mnemonic.table) {opcode : UInt8} {n : Int} {known : Bool} {column : Nat}
    (hop : m.opcode? s.run.code.cpu .relative = some opcode) :
    wp (branch opcode n known start column) env s
      (fun _ after => Emits m (!(s.run.pass == .first) && known) s (.direct n) after)
      (Spares s.run.code) := by
  simp only [branch, wp_bind, wp_getRun, wp_ite, wp_fail, Bool.or_eq_true, decide_eq_true_eq]
  split_ifs with hfirst hfar hfar
  · exact Or.inr rfl
  · refine wp_emit .relative (.direct n) [_] hm hop trivial rfl (fun hknown => ?_) (unpaired (by decide))
    rw [hfirst] at hknown
    cases hknown
  · exact Or.inr rfl
  · exact wp_emit .relative (.direct n) [byteOf (n - (s.run.code.pc + 2))] hm hop trivial rfl
      (fun _ => means_relative (by omega) (by omega)) (unpaired (by decide))

/-! ### Bracketed operands -/

theorem wp_indexedIndirect (hm : m ∈ Mnemonic.table) {n : Int} {known : Bool} {bracket : Nat} :
    wp (indexedIndirect m n known start bracket) env s
      (fun _ after => (∃ d₁ d₂, (s.cursor.skip 1).Passes ['X', 'x'] d₁ ∧ d₁.Passes [')'] d₂ ∧
        d₂.atStatementEnd = true) ∧ Emits m known s (.bracketedX n) after)
      (Spares s.run.code) := by
  simp only [indexedIndirect, wp_bind, wp_advance, wp_skipBlanks, wp_peek, wp_ite, wp_column, wp_fail,
    wp_pushPart, wp_opcode?]
  split_ifs with hx hclose
  · exact Or.inr rfl
  · exact Or.inr rfl
  · refine wp_expectEnd (fun hend => ?_) fun _ => Or.inr rfl
    have hreads : ∃ d₁ d₂, (s.cursor.skip 1).Passes ['X', 'x'] d₁ ∧ d₁.Passes [')'] d₂ ∧
        d₂.atStatementEnd = true := by
      refine ⟨_, _, Cursor.passes_two_iff.mpr ⟨hx, rfl⟩, Cursor.passes_one_iff.mpr ⟨?_, rfl⟩, ?_⟩
      · simpa using hclose
      · simpa using hend
    split
    · rename_i opcode hop
      refine wp_imp ?_ fun _ _ h => ⟨hreads, h⟩
      simp only [wp_bind]
      refine wp_checkZeroPage (fun h => ?_) fun _ => Or.inr rfl
      exact wp_emit .indexedIndirect (.bracketedX n) [byteOf n] hm hop trivial rfl
        (fun hknown => eq_byteOf (h hknown).1 (h hknown).2) (unpaired (by decide))
    · rename_i opcode hop
      refine wp_imp ?_ fun _ _ h => ⟨hreads, h⟩
      simp only [wp_bind]
      refine wp_checkAddress (fun h => ?_) fun _ => Or.inr rfl
      exact wp_emit .absoluteIndexedIndirect (.bracketedX n) [byteOf n, byteOf (n / 256)] hm hop trivial rfl
        (fun hknown => eq_bytesOf (h hknown).1 (h hknown).2) (unpaired (by decide))
    · exact Or.inr rfl

theorem wp_plainIndirect (hm : m ∈ Mnemonic.table) {n : Int} {known : Bool} {bracket : Nat} :
    wp (plainIndirect m n known start bracket) env s
      (fun done after => if done then Emits m known s (.bracketed n) after else
        after = s ∧ m.allows s.run.code.cpu .indirect = false ∧
          m.allows s.run.code.cpu .zeroPageIndirect = false)
      (Spares s.run.code) := by
  simp only [plainIndirect, wp_bind, wp_opcode?]
  split
  · rename_i opcode hop
    simp only [wp_bind, wp_getRun, wp_ite, wp_fail]
    refine wp_checkAddress (fun h => ?_) fun _ => Or.inr rfl
    split_ifs
    · exact Or.inr rfl
    · exact wp_emit .indirect (.bracketed n) [byteOf n, byteOf (n / 256)] hm hop trivial rfl
        (fun hknown => eq_bytesOf (h hknown).1 (h hknown).2) (unpaired (by decide))
  · rename_i opcode hop
    simp only [wp_bind]
    refine wp_checkZeroPage (fun h => ?_) fun _ => Or.inr rfl
    exact wp_emit .zeroPageIndirect (.bracketed n) [byteOf n] hm hop trivial rfl
      (fun hknown => eq_byteOf (h hknown).1 (h hknown).2) (unpaired (by decide))
  · rename_i hop hop'
    simp [Mnemonic.allows, hop, hop']

theorem wp_indirectIndexed (hm : m ∈ Mnemonic.table) {n : Int} {known : Bool} {bracket : Nat} :
    wp (indirectIndexed m n known start bracket) env s
      (fun done after => if done then
        (∃ d, (s.cursor.skip 1).Passes ['Y', 'y'] d ∧ d.atStatementEnd = true) ∧
          Emits m known s (.bracketedY n) after else
        after = s ∧ (m.allows s.run.code.cpu .indirectIndexed = false ∨
          ∀ d, ¬ (s.cursor.skip 1).Passes ['Y', 'y'] d))
      (Spares s.run.code) := by
  simp only [indirectIndexed, wp_bind, wp_getCursor, wp_opcode?]
  split
  · rename_i hop
    simp [Mnemonic.allows, hop]
  · rename_i opcode hop
    simp only [wp_bind, wp_ite, wp_pure, wp_setCursor, wp_pushPart, Bool.false_eq_true, if_false,
      if_true]
    split_ifs with hy
    · exact ⟨trivial, Or.inr fun d hd => (Cursor.passes_two_iff.mp hd).1 hy⟩
    · refine wp_expectEnd (fun hend => ?_) fun _ => Or.inr rfl
      refine wp_checkZeroPage (fun h => ?_) fun _ => Or.inr rfl
      refine wp_imp (wp_emit .indirectIndexed (.bracketedY n) [byteOf n] hm hop trivial rfl
        (fun hknown => eq_byteOf (h hknown).1 (h hknown).2) (unpaired (by decide))) fun _ _ h => ?_
      exact ⟨⟨_, Cursor.passes_two_iff.mpr ⟨hy, rfl⟩, by simpa using hend⟩, h⟩

/-- The indirect reading is carried through, or given up after nothing but an
evaluation. -/
theorem wp_indirect (hm : m ∈ Mnemonic.table) (hpeek : s.cursor.skipBlanks.peek = some '(') :
    wp (indirect m start) env { s with cursor := s.cursor.skipBlanks }
      (fun done after => (∃ n stop, valueAt env s (s.cursor.skipBlanks.skip 1) n stop) ∧ if done then
        ∃ a known, a.isMarked = true ∧ a.isBare = false ∧ ReadsAs (valueLeaving env s after.run.random) s.cursor a ∧
          IsSure s known ∧ Encoded m known s.run.code a after else
        NoOther m env s ∧ ∃ state, s.run.symbols.Alike state.symbols ∧
          after.walk = s.walk ∧ after.run = (evaluated s state).run)
      (Spares s.run.code) := by
  simp only [indirect, wp_bind, wp_column, wp_advance, wp_evaluate]
  refine ⟨fun e after he => ?_, fun _ _ _ => Or.inr rfl⟩
  have hsure : IsSure s e.known := fun hpass => Expr.evaluate_known hpass he
  simp only [wp_ofFault]
  refine ⟨fun n hn => ?_, fun _ _ => Or.inr rfl⟩
  simp only [wp_pushPart, wp_skipBlanks, wp_peek]
  have hopen : s.cursor.Passes ['('] (s.cursor.skipBlanks.skip 1) :=
    Cursor.passes_one_iff.mpr ⟨hpeek, rfl⟩
  have hvalue : valueAt env s (s.cursor.skipBlanks.skip 1) n e.stop := ⟨e, after, he, hn, rfl⟩
  have hleaves {t : LineState} (h : t.run.random = after.random) :
      valueLeaving env s t.run.random (s.cursor.skipBlanks.skip 1) n e.stop := ⟨e, after, he, hn, rfl, h.symm⟩
  have hopened : ∃ n stop, valueAt env s (s.cursor.skipBlanks.skip 1) n stop := ⟨n, e.stop, hvalue⟩
  split
  · rename_i hcomma
    simp only [wp_bind, wp_pure, if_true]
    refine wp_imp (wp_indexedIndirect hm) ?_
    rintro - t ⟨⟨d₁, d₂, h1, h2, hend⟩, h⟩
    exact ⟨hopened, .bracketedX n, e.known, rfl, rfl,
      .bracketedX hopen (hleaves h.2) (Cursor.passes_one_iff.mpr ⟨hcomma, rfl⟩) h1 h2 hend, hsure, h.1⟩
  · rename_i hclose
    have hclosed : e.stop.Passes [')'] (e.stop.skipBlanks.skip 1) :=
      Cursor.passes_one_iff.mpr ⟨hclose, rfl⟩
    simp only [wp_bind, wp_advance, wp_atEnd, wp_ite, wp_peek, wp_pure, Bool.false_eq_true, if_false]
    split_ifs with hend hcomma
    · have hend : (e.stop.skipBlanks.skip 1).atStatementEnd = true := by simpa using hend
      refine wp_imp (wp_plainIndirect hm) fun done t h => ?_
      split_ifs at h ⊢
      · exact ⟨hopened, .bracketed n, e.known, rfl, rfl, .bracketed hopen (hleaves h.2) hclosed hend, hsure, h.1⟩
      · obtain ⟨rfl, hind, hzp⟩ := h
        refine ⟨hopened, fun b hb hmb mode htakes => ?_, after, (Expr.evaluate_follows he).symbols, rfl, rfl⟩
        rcases hb.of_closed (hasOneValue_valueAt env s) hopen hvalue hclosed hmb with ⟨rfl, -⟩ | ⟨-, d₂, d₃, h3, -⟩
        · rcases Mode.eq_of_takes_bracketed htakes with rfl | rfl
          · exact hind
          · exact hzp
        · exact absurd hend (h3.not_atStatementEnd (by simp [isStatementEnd]))
    · refine wp_imp (wp_indirectIndexed hm) fun done t h => ?_
      split_ifs at h ⊢
      · obtain ⟨⟨d, h1, hend⟩, h⟩ := h
        refine ⟨hopened, .bracketedY n, e.known, rfl, rfl, .bracketedY hopen (hleaves h.2) hclosed ?_ h1 hend, hsure, h.1⟩
        exact Cursor.passes_one_iff.mpr ⟨by simpa using hcomma, rfl⟩
      · obtain ⟨rfl, hnone⟩ := h
        refine ⟨hopened, fun b hb hmb mode htakes => ?_, after, (Expr.evaluate_follows he).symbols, rfl, rfl⟩
        rcases hb.of_closed (hasOneValue_valueAt env s) hopen hvalue hclosed hmb with ⟨-, hend'⟩ | ⟨rfl, d₂, d₃, h3, h4⟩
        · exact absurd (by simpa using hend') hend
        · obtain rfl := h3.2
          obtain rfl := Mode.eq_of_takes_bracketedY htakes
          exact hnone.resolve_right fun hno => hno d₃ h4
    · refine ⟨hopened, fun b hb hmb mode htakes => ?_, after, (Expr.evaluate_follows he).symbols, rfl, rfl⟩
      rcases hb.of_closed (hasOneValue_valueAt env s) hopen hvalue hclosed hmb with ⟨-, hend'⟩ | ⟨-, d₂, d₃, h3, -⟩
      · exact absurd (by simpa using hend') hend
      · exact absurd (by simpa using (Cursor.passes_one_iff.mp h3).1) hcomma
  · exact Or.inr rfl

/-! ### Addresses -/

/-- The modes for an address that is written so. -/
inductive AddressModes.Fit : AddressModes → (Int → Addressing) → Prop
  | direct : Fit ⟨.zeroPage, .absolute, .noAbsolute⟩ .direct
  | directX : Fit ⟨.zeroPageX, .absoluteX, .noIndexedX⟩ .directX
  | directY : Fit ⟨.zeroPageY, .absoluteY, .noIndexedY⟩ .directY

/-- Writing a checked address with the modes for it. -/
theorem wp_emitAddress (hm : m ∈ Mnemonic.table) {modes : AddressModes} {write : Int → Addressing}
    (hfit : modes.Fit write) {n : Int} {known : Bool} {begin : Nat} (hn : known = true → 0 ≤ n ∧ n < 65536) :
    wp (emitAddress m modes n known start begin) env s
      (fun _ after => Emits m known s (write n) after) (Spares s.run.code) := by
  have hshort {opcode : UInt8} (hop : m.opcode? s.run.code.cpu modes.short = some opcode) (h : n < 256) :
      wp (emitByte opcode n known start) env s
        (fun _ after => Emits m known s (write n) after) (Spares s.run.code) := by
    cases hfit <;>
      refine wp_emit _ _ [byteOf n] hm hop trivial rfl (fun hknown => eq_byteOf (hn hknown).1 h) ?_ <;>
      simpa [Mode.addressPairs, Addressing.number] using h
  have hlong {opcode : UInt8} (hop : m.opcode? s.run.code.cpu modes.long = some opcode)
      (h : ¬ (n < 256 ∧ m.allows s.run.code.cpu modes.short = true)) :
      wp (emitWord opcode n known start) env s
        (fun _ after => Emits m known s (write n) after) (Spares s.run.code) := by
    cases hfit <;>
      refine wp_emit _ _ [byteOf n, byteOf (n / 256)] hm hop trivial rfl
        (fun hknown => eq_bytesOf (hn hknown).1 (hn hknown).2) ?_ <;>
      simpa [Mode.addressPairs, Addressing.number] using h
  simp only [emitAddress, wp_bind, wp_opcode?]
  split
  · rename_i short long hs hl
    rw [wp_ite]
    split_ifs with h
    · exact hshort hs h
    · exact hlong hl fun hc => h hc.1
  · rename_i short hs hl
    rw [wp_ite]
    split_ifs with h
    · exact hshort hs h
    · exact Or.inr rfl
  · rename_i long hs hl
    exact hlong hl fun hc => by simp [Mnemonic.allows, hs] at hc
  · exact Or.inr rfl

/-- The index register after the comma of an address. -/
theorem wp_indexRegister :
    wp indexRegister env s
      (fun modes after => after.run = s.run ∧ after.walk = s.walk ∧
        ((modes.Fit .directX ∧ ∃ d, (s.cursor.skip 1).Passes ['X', 'x'] d ∧ d.atStatementEnd = true) ∨
          modes.Fit .directY ∧ ∃ d, (s.cursor.skip 1).Passes ['Y', 'y'] d ∧ d.atStatementEnd = true))
      (Spares s.run.code) := by
  simp only [indexRegister, wp_bind, wp_advance, wp_skipBlanks, wp_getCursor, wp_ite, wp_fail]
  split_ifs
  · exact Or.inr rfl
  · exact Or.inr rfl
  · refine wp_expectEnd (fun hend => ?_) fun _ => Or.inr rfl
    have hend : ((s.cursor.skip 1).skipBlanks.skip 1).atStatementEnd = true := by simpa using hend
    have hpasses {signs : List Char} {x : Char} (hx : x ∈ signs)
        (hpeek : (s.cursor.skip 1).skipBlanks.peek = some x) :
        ∃ d, (s.cursor.skip 1).Passes signs d ∧ d.atStatementEnd = true :=
      ⟨_, ⟨⟨x, hx, hpeek⟩, rfl⟩, hend⟩
    split
    · rename_i hpeek
      exact ⟨rfl, rfl, Or.inl ⟨.directX, hpasses (by decide) hpeek⟩⟩
    · rename_i hpeek
      exact ⟨rfl, rfl, Or.inl ⟨.directX, hpasses (by decide) hpeek⟩⟩
    · rename_i hpeek
      exact ⟨rfl, rfl, Or.inr ⟨.directY, hpasses (by decide) hpeek⟩⟩
    · rename_i hpeek
      exact ⟨rfl, rfl, Or.inr ⟨.directY, hpasses (by decide) hpeek⟩⟩
    · exact Or.inr rfl

theorem wp_address (hm : m ∈ Mnemonic.table) :
    wp (address m start) env { s with cursor := s.cursor.skipBlanks }
      (fun _ after => ∃ a known, a.isBare = false ∧ ReadsAs (valueLeaving env s after.run.random) s.cursor a ∧
        IsSure s known ∧ Encoded m known s.run.code a after)
      (Spares s.run.code) := by
  simp only [address, wp_bind, wp_column, wp_evaluate]
  refine ⟨fun e after he => ?_, fun _ _ _ => Or.inr rfl⟩
  have hsure : IsSure s e.known := fun hpass => Expr.evaluate_known hpass he
  simp only [wp_pushPart, wp_ofFault]
  refine ⟨fun n hn => ?_, fun _ _ => Or.inr rfl⟩
  have hleaves {t : LineState} (h : t.run.random = after.random) :
      valueLeaving env s t.run.random s.cursor.skipBlanks n e.stop := ⟨e, after, he, hn, rfl, h.symm⟩
  simp only [wp_opcode?]
  split
  · rename_i opcode hop
    simp only [wp_bind]
    refine wp_expectEnd (fun hend => ?_) fun _ => Or.inr rfl
    refine wp_imp (wp_branch hm ?_) fun _ _ h => ⟨.direct n, _, rfl, ?_, fun hpass => ?_, h.1⟩
    · exact hop
    · exact .direct (hleaves h.2) (by simpa using hend)
    · have hlater : (s.run.pass == .first) = false := by simpa using hpass
      exact Bool.and_eq_true_iff.mpr ⟨congrArg (!·) hlater, hsure hpass⟩
  · simp only [wp_bind]
    refine wp_checkAddress (fun hbounds => ?_) fun _ => Or.inr rfl
    simp only [addressModes, wp_bind, wp_atEnd, wp_ite, wp_peek, wp_pure, wp_column, wp_fail]
    split_ifs with hend hcomma
    · refine wp_imp (wp_emitAddress hm .direct hbounds) fun _ _ h => ⟨.direct n, e.known, rfl, ?_, hsure, h.1⟩
      exact .direct (hleaves h.2) (by simpa using hend)
    · have hcomma : e.stop.Passes [','] (e.stop.skipBlanks.skip 1) :=
        Cursor.passes_one_iff.mpr ⟨by simpa using hcomma, rfl⟩
      refine wp_imp wp_indexRegister ?_
      rintro modes t ⟨hrun, hwalk, h⟩
      have hcode : t.run.code = s.run.code := by rw [hrun]; rfl
      have hrandom : t.run.random = after.random := by rw [hrun]; rfl
      rw [← hcode]
      rcases h with ⟨hfit, d, h2, hend⟩ | ⟨hfit, d, h2, hend⟩
      · exact wp_imp (wp_emitAddress hm hfit hbounds) fun _ _ h =>
          ⟨.directX n, e.known, rfl, .directX (hleaves (h.2.trans hrandom)) hcomma h2 hend, hsure, h.1⟩
      · exact wp_imp (wp_emitAddress hm hfit hbounds) fun _ _ h =>
          ⟨.directY n, e.known, rfl, .directY (hleaves (h.2.trans hrandom)) hcomma h2 hend, hsure, h.1⟩
    · exact Or.inr rfl

/-! ### All operands -/

/-- What an operand starts with decides how it is read. -/
structure Starts (m : Mnemonic) (env : Setting) (s : LineState) (a : Addressing) : Prop where
  nothing : s.cursor.atStatementEnd = true → a = .nothing
  immediate : ∀ d, s.cursor.Passes ['#'] d → ∃ n, a = .immediate n
  opened : m.hasIndirect s.run.code.cpu = true → ∀ d, s.cursor.Passes ['('] d → ∃ n stop, valueAt env s d n stop

theorem starts_of_peek {a : Addressing} (hend : s.cursor.atStatementEnd ≠ true)
    (hhash : s.cursor.skipBlanks.peek ≠ some '#')
    (hopen : m.hasIndirect s.run.code.cpu = true → s.cursor.skipBlanks.peek = some '(' →
      ∃ n stop, valueAt env s (s.cursor.skipBlanks.skip 1) n stop) : Starts m env s a where
  nothing h := absurd h hend
  immediate _ hd := absurd (Cursor.passes_one_iff.mp hd).1 hhash
  opened h _ hd := by
    obtain ⟨hpeek, rfl⟩ := Cursor.passes_one_iff.mp hd
    exact hopen h hpeek

/-- The operand has been read, and the instruction with it placed. -/
def Placed (m : Mnemonic) (env : Setting) (s after : LineState) : Prop :=
  ∃ a known, Reads m env s a ∧ Starts m env s a ∧ IsSure s known ∧ Encoded m known s.run.code a after

/-- The operand has been read, and its number, if it has one, evaluated once. -/
structure Drawn (env : Setting) (s : LineState) (a : Addressing) (after : LineState) : Prop where
  number : ReadsAs (valueLeaving env s after.run.random) s.cursor a
  bare : a.isBare = true → after.run.random = s.run.random

theorem Drawn.of_number {env : Setting} {s after : LineState} {a : Addressing} (hbare : a.isBare = false)
    (h : ReadsAs (valueLeaving env s after.run.random) s.cursor a) : Drawn env s a after :=
  ⟨h, fun h => by rw [hbare] at h; cases h⟩

theorem Drawn.written {env : Setting} {s after : LineState} {a : Addressing} (h : Drawn env s a after) :
    ReadsAs (valueAt env s) s.cursor a := h.number.mono valueAt_of_valueLeaving

/-- The operand has been read and its number evaluated once, and the instruction with
it placed. -/
def PlacedOnce (m : Mnemonic) (env : Setting) (s after : LineState) : Prop :=
  ∃ a known, Drawn env s a after ∧ Reads m env s a ∧ Starts m env s a ∧ IsSure s known ∧
    Encoded m known s.run.code a after

theorem wp_bracketed (hm : m ∈ Mnemonic.table) (hend : s.cursor.atStatementEnd ≠ true)
    (hpeek : s.cursor.skipBlanks.peek = some '(') :
    wp (bracketed m start) env { s with cursor := s.cursor.skipBlanks } (fun _ after => PlacedOnce m env s after)
      (Spares s.run.code) := by
  simp only [bracketed, wp_bind, wp_get]
  refine wp_imp (wp_indirect hm hpeek) fun done t h => ?_
  obtain ⟨hopened, h⟩ := h
  have hstarts (a : Addressing) : Starts m env s a := starts_of_peek hend (by simp [hpeek]) fun _ _ => hopened
  cases done with
  | true =>
    obtain ⟨a, known, hmarked, hbare, hreads, hsure, h⟩ := h
    have hdrawn : Drawn env s a t := .of_number hbare hreads
    refine ⟨a, known, hdrawn, ⟨hdrawn.written, fun b hb hmb _ _ _ => ?_⟩, hstarts a, hsure, h⟩
    exact hdrawn.written.marked_unique (hasOneValue_valueAt env s) hb hmarked hmb
  | false =>
    obtain ⟨hnot, state, halike, hwalk, hrun⟩ := h
    obtain ⟨cursor, nodes, parts, walk, run⟩ := t
    obtain rfl : walk = s.walk := hwalk
    obtain rfl : run = (evaluated s state).run := hrun
    -- the address is read from the start, with at most more uses of symbols noted
    let again : LineState :=
      ⟨s.cursor, nodes, s.parts, s.walk, { (evaluated s state).run with random := s.run.random }⟩
    have hagain (random : Random) : ∀ c n stop, valueLeaving env again random c n stop →
        valueLeaving env s random c n stop := by
      rintro c n stop ⟨e, after, he, hn, hstop, hrandom⟩
      have hs : (evaluation again).Alike (evaluation s) := ⟨halike.symm, rfl⟩
      obtain ⟨after', he', hafter⟩ := Expr.evaluate_ends_alike hs he
      exact ⟨e, after', he', hn, hstop, hafter.random.symm.trans hrandom⟩
    refine wp_imp (wp_address (s := again) hm) ?_
    rintro - after ⟨a, known, hbare, hreads, hsure, h⟩
    have hdrawn : Drawn env s a after := .of_number hbare (hreads.mono (hagain _))
    exact ⟨a, known, hdrawn, hnot.reads hdrawn.written, hstarts a, hsure, h⟩

/-- When the start of an operand leaves nothing but an address. -/
theorem noOther_of_peek
    (hopen : s.cursor.skipBlanks.peek = some '(' → m.hasIndirect s.run.code.cpu = false)
    (hacc : s.cursor.skipBlanks.peek = some 'A' ∨ s.cursor.skipBlanks.peek = some 'a' →
      m.allows s.run.code.cpu .accumulator = true → isAccumulator s.cursor.skipBlanks = false) :
    NoOther m env s := by
  intro b hb hmb mode htakes
  rcases hb.marked_cases hmb with ⟨rfl, d, hd, hend⟩ | ⟨hne, d, hd⟩
  · obtain rfl := Mode.eq_of_takes_accumulator htakes
    by_contra hallows
    obtain rfl := hd.2
    have hpeek : s.cursor.skipBlanks.peek = some 'A' ∨ s.cursor.skipBlanks.peek = some 'a' := by
      simpa using hd.1
    have := hacc hpeek (by simpa using hallows)
    simp [isAccumulator, hend, Cursor.not_isNameChar_of_atStatementEnd hend] at this
  · have hnone := hopen (Cursor.passes_one_iff.mp hd).1
    simp only [Mnemonic.hasIndirect, List.any_eq_false] at hnone
    refine Bool.not_eq_true _ ▸ hnone mode ?_
    cases b with
    | nothing | immediate | direct | directX | directY => cases hmb
    | accumulator => exact absurd rfl hne
    | bracketed n => rcases Mode.eq_of_takes_bracketed htakes with rfl | rfl <;> decide
    | bracketedX n => rcases Mode.eq_of_takes_bracketedX htakes with rfl | rfl <;> decide
    | bracketedY n => obtain rfl := Mode.eq_of_takes_bracketedY htakes; decide

theorem wp_operand_once (hm : m ∈ Mnemonic.table) :
    wp (operand m start) env s (fun _ after => PlacedOnce m env s after) (Spares s.run.code) := by
  simp only [operand, wp_bind, wp_atEnd, wp_ite]
  split_ifs with hend
  · have hend : s.cursor.atStatementEnd = true := by simpa using hend
    have hno : NoOther m env s := fun b hb hmb => by
      rcases hb.marked_cases hmb with ⟨-, d, hd, -⟩ | ⟨-, d, hd⟩
      · exact absurd hend (hd.not_atStatementEnd (by simp [isStatementEnd]))
      · exact absurd hend (hd.not_atStatementEnd (by simp [isStatementEnd]))
    refine wp_imp (wp_implied hm) fun _ _ h => ⟨.nothing, true, ⟨.nothing hend, fun _ => h.2⟩,
      hno.reads (.nothing hend), ⟨fun _ => rfl, fun d hd => ?_, fun _ d hd => ?_⟩, fun _ => rfl, h.1⟩
    · exact absurd hend (hd.not_atStatementEnd (by simp [isStatementEnd]))
    · exact absurd hend (hd.not_atStatementEnd (by simp [isStatementEnd]))
  · have hend : s.cursor.atStatementEnd ≠ true := by simpa using hend
    simp only [wp_getCursor, wp_getRun]
    have haddress (h : NoOther m env s) (hhash : s.cursor.skipBlanks.peek ≠ some '#')
        (hopen : s.cursor.skipBlanks.peek = some '(' → m.hasIndirect s.run.code.cpu = false) :
        wp (address m start) env { s with cursor := s.cursor.skipBlanks } (fun _ after => PlacedOnce m env s after)
          (Spares s.run.code) := by
      refine wp_imp (wp_address hm) fun _ _ hafter => ?_
      obtain ⟨a, known, hbare, ha, hsure, hafter⟩ := hafter
      have hdrawn := Drawn.of_number hbare ha
      refine ⟨a, known, hdrawn, h.reads hdrawn.written, starts_of_peek hend hhash fun hhas hpeek => ?_, hsure, hafter⟩
      rw [hopen hpeek] at hhas
      cases hhas
    -- whether an `A` is the accumulator
    have hacc {x : Char} {opcode : UInt8} (hx : x = 'A' ∨ x = 'a')
        (hpeek : s.cursor.skipBlanks.peek = some x)
        (hop : m.opcode? s.run.code.cpu .accumulator = some opcode) :
        wp (if isAccumulator s.cursor.skipBlanks then accumulator opcode start else address m start) env
          { s with cursor := s.cursor.skipBlanks } (fun _ after => PlacedOnce m env s after) (Spares s.run.code) := by
      have hhash : s.cursor.skipBlanks.peek ≠ some '#' := by rcases hx with rfl | rfl <;> simp [hpeek]
      have hopen : s.cursor.skipBlanks.peek ≠ some '(' := by rcases hx with rfl | rfl <;> simp [hpeek]
      rw [wp_ite]
      split_ifs with h
      · have hafter : (s.cursor.skipBlanks.skip 1).atStatementEnd = true := by simp [isAccumulator] at h; exact h.2
        have hreads {value : Cursor → Int → Cursor → Prop} : ReadsAs value s.cursor .accumulator :=
          .accumulator ⟨⟨x, by simpa using hx, hpeek⟩, rfl⟩ hafter
        refine wp_imp (wp_accumulator hm hop) fun _ _ h => ⟨.accumulator, true, ⟨hreads, fun _ => h.2⟩,
          ⟨hreads, fun b hb hmb _ _ _ => ?_⟩, starts_of_peek hend hhash fun _ h => absurd h hopen, fun _ => rfl, h.1⟩
        exact hreads.marked_unique (hasOneValue_valueAt env s) hb rfl hmb
      · exact haddress (noOther_of_peek (fun h => absurd h hopen) fun _ _ => by simpa using h) hhash
          fun h => absurd h hopen
    split
    · rename_i hpeek
      have hno : NoOther m env s := noOther_of_peek (by simp [hpeek]) (by simp [hpeek])
      refine wp_imp (wp_immediate hm hpeek) fun _ _ hafter => ?_
      obtain ⟨n, known, ha, hsure, hafter⟩ := hafter
      have hdrawn := Drawn.of_number rfl ha
      refine ⟨.immediate n, known, hdrawn, hno.reads hdrawn.written,
        ⟨fun h => absurd h hend, fun _ _ => ⟨n, rfl⟩, fun _ d hd => ?_⟩, hsure, hafter⟩
      have hopen := (Cursor.passes_one_iff.mp hd).1
      simp [hpeek] at hopen
    · rename_i hpeek
      rw [wp_ite]
      split_ifs with h
      · exact wp_bracketed hm hend hpeek
      · exact haddress (noOther_of_peek (fun _ => by simpa using h) (by simp [hpeek])) (by simp [hpeek])
          fun _ => by simpa using h
    · rename_i opcode hpeek hop
      exact hacc (Or.inl rfl) hpeek hop
    · rename_i opcode hpeek hop
      exact hacc (Or.inr rfl) hpeek hop
    · rename_i h1 h2 h3 h4
      refine haddress (noOther_of_peek (fun hpeek => (h2 hpeek).elim) fun hpeek hallows => ?_) h1 fun h => (h2 h).elim
      obtain ⟨opcode, hop⟩ := Option.isSome_iff_exists.mp hallows
      exact (hpeek.elim (h3 opcode · hop) (h4 opcode · hop)).elim

theorem wp_operand (hm : m ∈ Mnemonic.table) :
    wp (operand m start) env s (fun _ after => Placed m env s after) (Spares s.run.code) := by
  refine wp_imp (wp_operand_once hm) fun _ _ h => ?_
  obtain ⟨a, known, -, h⟩ := h
  exact ⟨a, known, h⟩

/-- **Instructions can be read back.** After the first pass, an instruction that
is accepted has been written at the program counter, and its bytes decode to
the mnemonic and to the operand as it is read from the line. One that is
refused leaves the object code as it was, unless inconsistent code is
reported. -/
theorem instruction_encoding (m : Mnemonic) (hm : m ∈ Mnemonic.table) (start : Nat) (env : Setting)
    (s : LineState) (hpass : s.run.pass ≠ .first) :
    match instruction m start env s with
    | .ok _ after => ∃ a mode opcode rest, Reads m env s a ∧
        IsEncoding m s.run.code.cpu s.run.code.pc a mode opcode rest ∧
        s.run.code.Gains (opcode :: rest) after.run.code
    | .error stop after =>
        (∃ column, stop = .problem ⟨.memory .inconsistentCode, column⟩) ∨
          after.run.code = s.run.code := by
  have h : wp (operand m start) env s (fun _ after => Placed m env s after) (Spares s.run.code) := wp_operand hm
  unfold wp at h
  simp only [instruction, andThen]
  -- the tree that is kept at the end is no part of the object code
  cases hrun : operand m start env s with
  | ok _ after =>
    simp only [hrun] at h
    obtain ⟨a, known, hreads, -, hsure, mode, -, -, hencoded⟩ := h
    obtain ⟨opcode, rest, hencoding, hgains⟩ := hencoded (hsure hpass)
    exact ⟨a, mode, opcode, rest, hreads, hencoding, hgains⟩
  | error stop after =>
    simp only [hrun] at h
    exact h

/-- A setting without files and without room for nested texts. -/
def bareSetting : Setting :=
  ⟨Library.ofFiles [], ⟨0, 0⟩, 0, fun _ _ _ r => some r, fun _ => throw .exhausted⟩

/-- A line in the second pass with nothing before it, where a text is left to
read. -/
def bareLine (text : String) : LineState :=
  ⟨.ofText text, #[], #[], .start (.ofText 0 text 0 none) [],
    { Run.start ⟨[], 0, none⟩ 0 .never 0 with pass := .second }⟩

/-- The operand `(&70),Y` of an `LDA`. -/
theorem instruction_encoding_bracketed :
    ∃ m ∈ Mnemonic.table, m.name = "LDA" ∧ (bareLine " (&70),Y").run.pass ≠ .first ∧
    ∃ after, instruction m 0 bareSetting (bareLine " (&70),Y") = .ok () after ∧
      after.run.code.bytes 0 2 = [0xB1, 0x70] ∧
      ∃ a mode opcode rest, Reads m bareSetting (bareLine " (&70),Y") a ∧
        IsEncoding m 0 0 a mode opcode rest ∧
        ObjectCode.empty.Gains (opcode :: rest) after.run.code := by
  obtain ⟨m, hfind, hname, hbytes⟩ : ∃ m, Mnemonic.table.find? (·.name == "LDA") = some m ∧
      m.name = "LDA" ∧ (match instruction m 0 bareSetting (bareLine " (&70),Y") with
        | .ok _ after => after.run.code.bytes 0 2 == [0xB1, 0x70]
        | .error _ _ => false) = true := ⟨_, rfl, rfl, by decide +kernel⟩
  have hm : m ∈ Mnemonic.table := List.mem_of_find?_eq_some hfind
  have h := instruction_encoding m hm 0 bareSetting (bareLine " (&70),Y") (by decide)
  refine ⟨m, hm, hname, by decide, ?_⟩
  cases hrun : instruction m 0 bareSetting (bareLine " (&70),Y") with
  | ok _ after =>
    simp only [hrun] at h hbytes
    exact ⟨after, rfl, by simpa using hbytes, h⟩
  | error stop after => simp [hrun] at hbytes

end LineM
end Asm6502
