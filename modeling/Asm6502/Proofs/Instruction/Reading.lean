/-
# How an operand is read

The operand of an instruction is a text with an expression in it. Here it is
said, apart from the order in which the statement tries them, which texts are
which operands. A text in brackets may be a bracketed operand or an expression,
and an `A` the accumulator or a name; then the mnemonic decides: the operand is
an address only if there is no mode for the other reading.

Key definitions: `ReadsAs`, `LineM.valueAt`, `LineM.Reads`.
Key theorems: `ReadsAs.mono`, `ReadsAs.marked_unique`.
-/
import Asm6502.Proofs.Expr.Evaluation
import Asm6502.Proofs.Instruction.Encoding
import Asm6502.Proofs.Statement.Execution

namespace Asm6502

/-- The text at a cursor is an operand, where `value c n stop` says that the
number `n` is written at `c` and ends at `stop`. -/
inductive ReadsAs (value : Cursor → Int → Cursor → Prop) (c : Cursor) : Addressing → Prop
  | nothing : c.atStatementEnd = true → ReadsAs value c .nothing
  | accumulator {d : Cursor} : c.Passes ['A', 'a'] d → d.atStatementEnd = true →
      ReadsAs value c .accumulator
  | immediate {d stop : Cursor} {n : Int} : c.Passes ['#'] d → value d n stop →
      stop.atStatementEnd = true → ReadsAs value c (.immediate n)
  | direct {stop : Cursor} {n : Int} : value c.skipBlanks n stop → stop.atStatementEnd = true →
      ReadsAs value c (.direct n)
  | directX {stop d₁ d₂ : Cursor} {n : Int} : value c.skipBlanks n stop → stop.Passes [','] d₁ →
      d₁.Passes ['X', 'x'] d₂ → d₂.atStatementEnd = true → ReadsAs value c (.directX n)
  | directY {stop d₁ d₂ : Cursor} {n : Int} : value c.skipBlanks n stop → stop.Passes [','] d₁ →
      d₁.Passes ['Y', 'y'] d₂ → d₂.atStatementEnd = true → ReadsAs value c (.directY n)
  | bracketed {d stop d₁ : Cursor} {n : Int} : c.Passes ['('] d → value d n stop →
      stop.Passes [')'] d₁ → d₁.atStatementEnd = true → ReadsAs value c (.bracketed n)
  | bracketedX {d stop d₁ d₂ d₃ : Cursor} {n : Int} : c.Passes ['('] d → value d n stop →
      stop.Passes [','] d₁ → d₁.Passes ['X', 'x'] d₂ → d₂.Passes [')'] d₃ →
      d₃.atStatementEnd = true → ReadsAs value c (.bracketedX n)
  | bracketedY {d stop d₁ d₂ d₃ : Cursor} {n : Int} : c.Passes ['('] d → value d n stop →
      stop.Passes [')'] d₁ → d₁.Passes [','] d₂ → d₂.Passes ['Y', 'y'] d₃ →
      d₃.atStatementEnd = true → ReadsAs value c (.bracketedY n)

/-- An operand that could be an expression as well. -/
def Addressing.isMarked : Addressing → Bool
  | accumulator | bracketed _ | bracketedX _ | bracketedY _ => true
  | _ => false

theorem ReadsAs.mono {value value' : Cursor → Int → Cursor → Prop} {c : Cursor} {a : Addressing}
    (h : ∀ c n stop, value c n stop → value' c n stop) (ha : ReadsAs value c a) :
    ReadsAs value' c a := by
  cases ha with
  | nothing hend => exact .nothing hend
  | accumulator h1 hend => exact .accumulator h1 hend
  | immediate h1 hv hend => exact .immediate h1 (h _ _ _ hv) hend
  | direct hv hend => exact .direct (h _ _ _ hv) hend
  | directX hv h1 h2 hend => exact .directX (h _ _ _ hv) h1 h2 hend
  | directY hv h1 h2 hend => exact .directY (h _ _ _ hv) h1 h2 hend
  | bracketed h1 hv h2 hend => exact .bracketed h1 (h _ _ _ hv) h2 hend
  | bracketedX h1 hv h2 h3 h4 hend => exact .bracketedX h1 (h _ _ _ hv) h2 h3 h4 hend
  | bracketedY h1 hv h2 h3 h4 hend => exact .bracketedY h1 (h _ _ _ hv) h2 h3 h4 hend

theorem ReadsAs.marked_cases {value : Cursor → Int → Cursor → Prop} {c : Cursor} {b : Addressing}
    (hb : ReadsAs value c b) (hmb : b.isMarked = true) :
    (b = .accumulator ∧ ∃ d, c.Passes ['A', 'a'] d ∧ d.atStatementEnd = true) ∨
      (b ≠ .accumulator ∧ ∃ d, c.Passes ['('] d) := by
  cases hb with
  | nothing | immediate | direct | directX | directY => cases hmb
  | accumulator h1 hend => exact Or.inl ⟨rfl, _, h1, hend⟩
  | bracketed h1 | bracketedX h1 | bracketedY h1 => exact Or.inr ⟨by simp, _, h1⟩

/-- At most one number is written at a place. -/
def HasOneValue (value : Cursor → Int → Cursor → Prop) : Prop :=
  ∀ ⦃c n n' stop stop'⦄, value c n stop → value c n' stop' → n = n' ∧ stop = stop'

/-- A text is a marked operand in at most one way. -/
theorem ReadsAs.marked_unique {value : Cursor → Int → Cursor → Prop} {c : Cursor} {a b : Addressing}
    (hvalue : HasOneValue value)
    (ha : ReadsAs value c a) (hb : ReadsAs value c b) (hma : a.isMarked = true)
    (hmb : b.isMarked = true) : a = b := by
  cases ha with
  | nothing | immediate | direct | directX | directY => cases hma
  | accumulator h1 hend =>
    cases hb with
    | nothing | immediate | direct | directX | directY => cases hmb
    | accumulator => rfl
    | bracketed h1' | bracketedX h1' | bracketedY h1' => exact (h1.false_of_disjoint h1' (by simp)).elim
  | bracketed h1 hv h2 hend =>
    cases hb with
    | nothing | immediate | direct | directX | directY => cases hmb
    | accumulator h1' => exact (h1.false_of_disjoint h1' (by simp)).elim
    | bracketed h1' hv' h2' hend' =>
      obtain rfl := h1.eq h1'
      rw [(hvalue hv hv').1]
    | bracketedX h1' hv' h2' =>
      obtain rfl := h1.eq h1'
      obtain ⟨-, rfl⟩ := hvalue hv hv'
      exact (h2.false_of_disjoint h2' (by simp)).elim
    | bracketedY h1' hv' h2' h3' =>
      obtain rfl := h1.eq h1'
      obtain ⟨-, rfl⟩ := hvalue hv hv'
      obtain rfl := h2.eq h2'
      exact absurd hend (h3'.not_atStatementEnd (by simp [isStatementEnd]))
  | bracketedX h1 hv h2 h3 h4 hend =>
    cases hb with
    | nothing | immediate | direct | directX | directY => cases hmb
    | accumulator h1' => exact (h1.false_of_disjoint h1' (by simp)).elim
    | bracketed h1' hv' h2' | bracketedY h1' hv' h2' =>
      obtain rfl := h1.eq h1'
      obtain ⟨-, rfl⟩ := hvalue hv hv'
      exact (h2.false_of_disjoint h2' (by simp)).elim
    | bracketedX h1' hv' =>
      obtain rfl := h1.eq h1'
      rw [(hvalue hv hv').1]
  | bracketedY h1 hv h2 h3 h4 hend =>
    cases hb with
    | nothing | immediate | direct | directX | directY => cases hmb
    | accumulator h1' => exact (h1.false_of_disjoint h1' (by simp)).elim
    | bracketed h1' hv' h2' hend' =>
      obtain rfl := h1.eq h1'
      obtain ⟨-, rfl⟩ := hvalue hv hv'
      obtain rfl := h2.eq h2'
      exact absurd hend' (h3.not_atStatementEnd (by simp [isStatementEnd]))
    | bracketedX h1' hv' h2' =>
      obtain rfl := h1.eq h1'
      obtain ⟨-, rfl⟩ := hvalue hv hv'
      exact (h2.false_of_disjoint h2' (by simp)).elim
    | bracketedY h1' hv' =>
      obtain rfl := h1.eq h1'
      rw [(hvalue hv hv').1]

/-- A marked operand whose number is followed by a closing bracket. -/
theorem ReadsAs.of_closed {value : Cursor → Int → Cursor → Prop} {c d stop d₁ : Cursor} {n : Int}
    {b : Addressing}
    (hvalue : HasOneValue value)
    (hopen : c.Passes ['('] d) (hn : value d n stop) (hclosed : stop.Passes [')'] d₁)
    (hb : ReadsAs value c b) (hmb : b.isMarked = true) :
    (b = .bracketed n ∧ d₁.atStatementEnd = true) ∨
      (b = .bracketedY n ∧ ∃ d₂ d₃, d₁.Passes [','] d₂ ∧ d₂.Passes ['Y', 'y'] d₃) := by
  cases hb with
  | nothing | immediate | direct | directX | directY => cases hmb
  | accumulator h1 => exact (hopen.false_of_disjoint h1 (by simp)).elim
  | bracketed h1 hv h2 hend =>
    obtain rfl := hopen.eq h1
    obtain ⟨rfl, rfl⟩ := hvalue hn hv
    obtain rfl := hclosed.eq h2
    exact Or.inl ⟨rfl, hend⟩
  | bracketedX h1 hv h2 =>
    obtain rfl := hopen.eq h1
    obtain ⟨rfl, rfl⟩ := hvalue hn hv
    exact (hclosed.false_of_disjoint h2 (by simp)).elim
  | bracketedY h1 hv h2 h3 h4 =>
    obtain rfl := hopen.eq h1
    obtain ⟨rfl, rfl⟩ := hvalue hn hv
    obtain rfl := hclosed.eq h2
    exact Or.inr ⟨rfl, _, _, h3, h4⟩

namespace LineM

/-- A number is written at a place of the line, as it is evaluated there. -/
def valueAt (env : Setting) (s : LineState) (c : Cursor) (n : Int) (stop : Cursor) : Prop :=
  ∃ e after, Expr.evaluate (context env s) env.allowance.evals c (evaluation s) = .ok e after ∧
    e.value.integer = .ok n ∧ e.stop = stop

/-- How an instruction reads its operand: as an address only if there is no mode
for another reading. -/
structure Reads (m : Mnemonic) (env : Setting) (s : LineState) (a : Addressing) : Prop where
  written : ReadsAs (valueAt env s) s.cursor a
  preferred : ∀ b, ReadsAs (valueAt env s) s.cursor b → b.isMarked = true →
    ∀ mode, mode.Takes b → m.allows s.run.code.cpu mode = true → a = b

/-- No reading of the operand as something else than an address has a mode. -/
def NoOther (m : Mnemonic) (env : Setting) (s : LineState) : Prop :=
  ∀ b, ReadsAs (valueAt env s) s.cursor b → b.isMarked = true →
    ∀ mode, mode.Takes b → m.allows s.run.code.cpu mode = false

theorem NoOther.reads {m : Mnemonic} {env : Setting} {s : LineState} {a : Addressing}
    (h : NoOther m env s) (ha : ReadsAs (valueAt env s) s.cursor a) : Reads m env s a := by
  refine ⟨ha, fun b hb hmb mode htakes hallows => ?_⟩
  rw [h b hb hmb mode htakes] at hallows
  cases hallows

theorem hasOneValue_valueAt (env : Setting) (s : LineState) : HasOneValue (valueAt env s) := by
  rintro c n n' - - ⟨e, after, he, hn, rfl⟩ ⟨e', after', he', hn', rfl⟩
  obtain ⟨rfl, rfl⟩ := EStateM.Result.ok.inj (he.symm.trans he')
  exact ⟨Except.ok.inj (hn.symm.trans hn'), rfl⟩

end LineM
end Asm6502
