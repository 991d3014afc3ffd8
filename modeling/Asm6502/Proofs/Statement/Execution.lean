/-
# What the execution of a statement comes to

`wp m env s Q E` says that the step `m`, begun in the state `s`, either ends
with a result and a state that satisfy `Q` or stops with a reason and a state
that satisfy `E`. A program is opened from its first step on: `wp_bind` hands
the rest of the program to the first step as what must hold after it, and each
primitive step has an equation of its own.

Key definitions: `LineM.wp`, `LineM.stateOf`.
Key theorems: `LineM.wp_bind`, `LineM.wp_mono`, `LineM.wp_evaluate`,
`LineM.wp_write`.
-/
import Mathlib.Tactic.ByContra
import Mathlib.Tactic.SplitIfs
import Asm6502.Statement.Basic

namespace Asm6502

/-- The line from its next statement on. -/
abbrev LineState.atStatement (s : LineState) : LineState := { s with cursor := s.cursor.skipBlanks }

namespace LineM

/-- What must hold of the result of a step, or of the reason why it stops, and of
the state after it. -/
def wp (m : LineM α) (env : Setting) (s : LineState) (Q : α → LineState → Prop)
    (E : Stop → LineState → Prop) : Prop :=
  match m env s with
  | .ok a t => Q a t
  | .error stop t => E stop t

/-- The state that a step comes to, whether it succeeds or stops. -/
def stateOf : EStateM.Result Stop LineState α → LineState
  | .ok _ t => t
  | .error _ t => t

/-- Whether a step succeeds with a value. -/
def succeeds {α : Type} [BEq α] (a : α) : EStateM.Result Stop LineState α → Bool
  | .ok b _ => b == a
  | .error _ _ => false

theorem eq_ok_stateOf {α : Type} [BEq α] [LawfulBEq α] {a : α} {x : EStateM.Result Stop LineState α}
    (h : succeeds a x = true) : x = .ok a (stateOf x) := by
  cases x with
  | ok b t =>
    rw [eq_of_beq h]
    rfl
  | error stop t => cases h

variable {α β : Type} {env : Setting} {s : LineState} {Q : α → LineState → Prop}
  {E : Stop → LineState → Prop}

theorem wp_mono_ok {m : LineM α} {Q' : α → LineState → Prop} {E' : Stop → LineState → Prop}
    (h : wp m env s Q' E') (hQ : ∀ a t, m env s = .ok a t → Q' a t → Q a t) (hE : ∀ stop t, E' stop t → E stop t) :
    wp m env s Q E := by
  unfold wp at *
  cases hm : m env s with
  | ok a t => exact hQ a t hm (by simpa only [hm] using h)
  | error stop t => exact hE stop t (by simpa only [hm] using h)

theorem wp_mono {m : LineM α} {Q' : α → LineState → Prop} {E' : Stop → LineState → Prop}
    (h : wp m env s Q' E') (hQ : ∀ a t, Q' a t → Q a t) (hE : ∀ stop t, E' stop t → E stop t) :
    wp m env s Q E := wp_mono_ok h (fun a t _ => hQ a t) hE

/-- What holds after a step whether it stops or not holds of the state that it comes to. -/
theorem wp_stateOf {m : LineM α} {P : LineState → Prop} (h : wp m env s (fun _ t => P t) fun _ t => P t) :
    P (stateOf (m env s)) := by
  unfold wp at h
  cases hrun : m env s <;> rw [hrun] at h <;> exact h

theorem wp_imp {m : LineM α} {Q' : α → LineState → Prop} (h : wp m env s Q' E)
    (hQ : ∀ a t, Q' a t → Q a t) : wp m env s Q E := wp_mono h hQ fun _ _ => id

theorem wp_and {m : LineM α} {Q Q' : α → LineState → Prop} {E E' : Stop → LineState → Prop}
    (h : wp m env s Q E) (h' : wp m env s Q' E') :
    wp m env s (fun a t => Q a t ∧ Q' a t) fun stop t => E stop t ∧ E' stop t := by
  unfold wp at *
  split <;> simp_all

theorem of_wp_ok {m : LineM α} {a : α} {t : LineState} (h : wp m env s Q E) (hrun : m env s = .ok a t) :
    Q a t := by
  rw [wp, hrun] at h
  exact h

theorem of_wp_error {m : LineM α} {stop : Stop} {t : LineState} (h : wp m env s Q E)
    (hrun : m env s = .error stop t) : E stop t := by
  rw [wp, hrun] at h
  exact h

@[simp]
theorem wp_pure (a : α) : wp (pure a) env s Q E ↔ Q a s := Iff.rfl

@[simp]
theorem wp_bind (x : LineM β) (f : β → LineM α) :
    wp (x >>= f) env s Q E ↔ wp x env s (fun b t => wp (f b) env t Q E) E := by
  simp only [wp, bind, ReaderT.bind, EStateM.bind]
  cases x env s <;> rfl

/-- Nothing need be known of a first step. -/
theorem wp_any {x : LineM β} {f : β → LineM α} (hf : ∀ b t, wp (f b) env t Q fun _ _ => True) :
    wp (x >>= f) env s Q fun _ _ => True := by
  rw [wp_bind, wp]
  split
  · exact hf _ _
  · trivial

theorem bind_of_ok {x : LineM β} {f : β → LineM α} {b : β} {t : LineState} (h : x env s = .ok b t) :
    (x >>= f) env s = f b env t := by
  simp only [bind, ReaderT.bind, EStateM.bind, h]

@[simp]
theorem wp_ite (c : Prop) [Decidable c] (x y : LineM α) :
    wp (if c then x else y) env s Q E ↔ if c then wp x env s Q E else wp y env s Q E := by
  split_ifs <;> rfl

theorem wp_cases {c : Prop} [Decidable c] {x y : LineM α} (hx : c → wp x env s Q E) (hy : ¬ c → wp y env s Q E) :
    wp (if c then x else y) env s Q E := by
  split_ifs with hc
  · exact hx hc
  · exact hy hc

@[simp]
theorem wp_fail (fault : Fault) (column : Nat) :
    wp (fail fault column : LineM α) env s Q E ↔ E (.problem ⟨fault, column⟩) s := Iff.rfl

theorem wp_andThen (m : LineM α) (last : LineState → LineState) :
    wp (m.andThen last) env s Q E ↔ wp m env s (fun a t => Q a (last t)) fun stop t => E stop (last t) := by
  simp only [wp, andThen]
  cases m env s <;> rfl

/-! ### Looking at the state -/

@[simp]
theorem wp_get {Q : LineState → LineState → Prop} : wp get env s Q E ↔ Q s s := Iff.rfl

@[simp]
theorem wp_modify (f : LineState → LineState) {Q : Unit → LineState → Prop} :
    wp (modify f) env s Q E ↔ Q () (f s) := Iff.rfl

@[simp]
theorem wp_read {Q : Setting → LineState → Prop} : wp read env s Q E ↔ Q env s := Iff.rfl

@[simp]
theorem wp_getCursor {Q : Cursor → LineState → Prop} :
    wp getCursor env s Q E ↔ Q s.cursor s := Iff.rfl

@[simp]
theorem wp_column {Q : Nat → LineState → Prop} : wp column env s Q E ↔ Q s.cursor.column s := Iff.rfl

@[simp]
theorem wp_peek {Q : Option Char → LineState → Prop} :
    wp peek env s Q E ↔ Q s.cursor.peek s := Iff.rfl

@[simp]
theorem wp_getWalk {Q : Walk → LineState → Prop} : wp getWalk env s Q E ↔ Q s.walk s := Iff.rfl

@[simp]
theorem wp_getRun {Q : Run → LineState → Prop} : wp getRun env s Q E ↔ Q s.run s := Iff.rfl

@[simp]
theorem wp_isSecondPass {Q : Bool → LineState → Prop} :
    wp isSecondPass env s Q E ↔ Q (s.run.pass == .second) s := Iff.rfl

@[simp]
theorem wp_position (column : Nat) {Q : Position → LineState → Prop} :
    wp (position column) env s Q E ↔ Q (s.walk.buffer.position env.index column) s := Iff.rfl

@[simp]
theorem wp_spot (column : Nat) {Q : Spot → LineState → Prop} :
    wp (spot column) env s Q E ↔ Q ⟨env.index, column⟩ s := Iff.rfl

/-! ### Changing the state -/

section
variable {Q : Unit → LineState → Prop}

@[simp]
theorem wp_setCursor (cursor : Cursor) :
    wp (setCursor cursor) env s Q E ↔ Q () { s with cursor } := Iff.rfl

@[simp]
theorem wp_advance (n : Nat) :
    wp (advance n) env s Q E ↔ Q () { s with cursor := s.cursor.skip n } := Iff.rfl

@[simp]
theorem wp_skipBlanks :
    wp skipBlanks env s Q E ↔ Q () { s with cursor := s.cursor.skipBlanks } := Iff.rfl

@[simp]
theorem wp_setWalk (walk : Walk) : wp (setWalk walk) env s Q E ↔ Q () { s with walk } := Iff.rfl

@[simp]
theorem wp_modifyRun (f : Run → Run) :
    wp (modifyRun f) env s Q E ↔ Q () { s with run := f s.run } := Iff.rfl

@[simp]
theorem wp_modifyCode (f : ObjectCode → ObjectCode) :
    wp (modifyCode f) env s Q E ↔ Q () { s with run := { s.run with code := f s.run.code } } :=
  Iff.rfl

@[simp]
theorem wp_modifySymbols (f : SymbolTable → SymbolTable) :
    wp (modifySymbols f) env s Q E ↔
      Q () { s with run := { s.run with symbols := f s.run.symbols } } := Iff.rfl

@[simp]
theorem wp_pushPart (node : Node) :
    wp (pushPart node) env s Q E ↔ Q () { s with parts := s.parts.push node } := Iff.rfl

@[simp]
theorem wp_pushNode (kind : NodeKind) (text : String) (column : Nat) :
    wp (pushNode kind text column) env s Q E ↔
      Q () { s with nodes := s.nodes.push (.mk kind text column s.parts.toList) } := Iff.rfl

end

@[simp]
theorem wp_atEnd {Q : Bool → LineState → Prop} :
    wp atEnd env s Q E ↔
      Q s.cursor.skipBlanks.atStatementEnd { s with cursor := s.cursor.skipBlanks } := Iff.rfl

theorem wp_ofFault {column : Nat} {x : Except Fault α} :
    wp (ofFault column x) env s Q E ↔
      (∀ a, x = .ok a → Q a s) ∧ ∀ fault, x = .error fault → E (.problem ⟨fault, column⟩) s := by
  cases x <;> simp [ofFault]

theorem changeWalk_of_ok {column : Nat} {f : Walk → Run → Except Fault (Walk × Run)} {w : Walk} {r : Run}
    (h : f s.walk s.run = .ok (w, r)) :
    changeWalk column f env s = .ok () { s with walk := w, run := r } := by
  have hfault : ofFault column (f s.walk s.run) env s = .ok (w, r) s := by
    rw [h]
    rfl
  exact bind_of_ok (x := ofFault column (f s.walk s.run)) hfault

theorem wp_changeWalk {column : Nat} {f : Walk → Run → Except Fault (Walk × Run)}
    {Q : Unit → LineState → Prop} {E : Stop → LineState → Prop}
    (hQ : ∀ w r, f s.walk s.run = .ok (w, r) → Q () { s with walk := w, run := r })
    (hE : ∀ problem, E (.problem problem) s) : wp (changeWalk column f) env s Q E := by
  unfold changeWalk
  simp only [wp_bind, wp_getWalk, wp_getRun, wp_ofFault, wp_modify]
  exact ⟨fun result hresult => hQ result.1 result.2 hresult, fun _ _ => hE _⟩

/-- After `expectEnd` the cursor is where the statement ends. -/
theorem wp_expectEnd {Q : Unit → LineState → Prop}
    (hQ : s.cursor.skipBlanks.atStatementEnd = true → Q () { s with cursor := s.cursor.skipBlanks })
    (hE : ∀ problem, E (.problem problem) { s with cursor := s.cursor.skipBlanks }) :
    wp expectEnd env s Q E := by
  simp only [expectEnd, wp_bind, wp_skipBlanks, wp_getCursor]
  split
  · exact hE _
  · rename_i hend
    refine hQ ?_
    by_contra h
    rw [Expr.endProblem?, if_neg h] at hend
    cases hend

/-! ### Evaluating and writing -/

/-- The state of evaluation on a line. -/
def evaluation (s : LineState) : Expr.State := ⟨s.run.symbols, s.run.random, s.run.history⟩

/-- A line after an evaluation. -/
def evaluated (s : LineState) (after : Expr.State) : LineState :=
  { s with
    run := { s.run with
      symbols := after.symbols
      random := after.random
      history := after.history } }

theorem wp_evaluate {Q : Expr.Evaluated → LineState → Prop} :
    wp evaluate env s Q E ↔
      (∀ e after, Expr.evaluate (context env s) env.allowance.evals s.cursor (evaluation s) = .ok e after →
        Q e { evaluated s after with cursor := e.stop }) ∧
      ∀ problem after,
        Expr.evaluate (context env s) env.allowance.evals s.cursor (evaluation s) = .error problem after →
        E (.problem problem) (evaluated s after) := by
  simp only [wp, evaluate, evaluation, evaluated]
  cases Expr.evaluate (context env s) env.allowance.evals s.cursor
    ⟨s.run.symbols, s.run.random, s.run.history⟩ <;> simp

/-- What a write leaves is that of the object code, whether it goes on or stops. -/
theorem wp_write {bytes : List (UInt8 × Bool)} {column : Nat} {Q : Unit → LineState → Prop} :
    wp (write bytes column) env s Q E ↔
      let outcome := s.run.code.write bytes (s.walk.buffer.origin env.index column)
      let after := { s with run := { s.run with code := outcome.2 } }
      match outcome.1 with
      | none => Q () after
      | some fault => E (.problem ⟨.memory fault, column⟩) after := by
  simp only [wp, write]
  cases (s.run.code.write bytes (s.walk.buffer.origin env.index column)).1 <;> rfl

end LineM
end Asm6502
