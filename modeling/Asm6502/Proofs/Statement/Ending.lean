/-
# Skipping a statement ends where executing it ends

What skips a statement passes over an executed one up to its end
(`Asm6502.Proofs.Statement.Span`), and a statement that is executed goes on to its end
unless another one may follow without a separator (`Asm6502.Proofs.Statement.Place`).
So they end at the same place, to the character. What the text of an `ASM` does does not
matter: it is executed on a line of its own.

Key theorems: `LineM.cursor_asm`, `LineM.cursor_statement`, `executed_ends_as_skipped`.
-/
import Asm6502.Proofs.Instruction.Reservation
import Asm6502.Proofs.Walk.Skipping

namespace Asm6502
namespace LineM

-- the statements are long, and so are the searches for their instances
set_option synthInstance.maxSize 1024

variable {start : Nat} {env : Setting} {s : LineState}

instance : IsSpanned (next start) := by
  unfold next
  infer_instance

instance : IsSpanned openText := by
  unfold openText
  infer_instance

/-- A text is executed on a line of its own, so the line at hand is left where its
`ASM` ends. -/
theorem cursor_inline (henv : env.IsTame) {text : String} {column : Nat} :
    wp (inline text column) env s (fun _ t => t.cursor = s.cursor) fun _ _ => True := by
  unfold wp inline
  cases hrun : env.runText text s with
  | ok node t => exact (of_wp_ok (henv.runText text s) hrun).2
  | error stop t => cases stop <;> trivial

theorem cursor_asm (henv : env.IsTame) :
    wp asm env s (fun _ t => t.cursor = s.cursor.skipStatement) fun _ _ => True := by
  have hopen : EndsAsSkipped openText := inferInstance
  unfold asm
  rw [wp_bind]
  refine wp_imp (hopen.ends env s) fun found t ht => ?_
  rw [wp_bind, wp_andThen]
  exact wp_imp (cursor_inline henv) fun _ _ hu => hu.trans ht

/-- A directive ends where it ends if it is skipped. -/
theorem cursor_perform (henv : env.IsTame) {d : Directive} (hd : d.isStructural = false)
    (hopen : d.isOpenEnded = false) :
    wp (perform d start) env s (fun _ t => t.cursor = s.cursor.skipStatement) fun _ _ => True := by
  by_cases hnext : d = .next
  · subst hnext
    exact EndsAsSkipped.ends (m := next start) env s
  by_cases hasm : d = .asm
  · subst hasm
    exact cursor_asm henv
  have hwhole : d.isWhole = true := by
    revert hd hopen hnext hasm
    cases d <;> decide
  exact (endsAsSkipped_perform start hwhole).ends env s

/-- A statement ends where it ends if it is skipped, unless it structures the text
or another one may follow it without a separator. -/
theorem cursor_statement (henv : env.IsTame)
    (h : ∀ d, s.cursor.directive? = some d → d.isStructural = false ∧ d.isOpenEnded = false) :
    wp statement env s (fun _ t => t.cursor = s.cursor.skipStatement) fun _ _ => True := by
  cases hd : directive? s with
  | some d =>
    obtain ⟨spelling, hfind⟩ := find?_of_directive? hd
    obtain ⟨hstructural, hopen⟩ := h d (directive?_cursor hd)
    have hspans : s.cursor.Spans (s.cursor.skip spelling.length) := by
      refine Cursor.spans_spelling hfind ?_ ?_ <;> rintro rfl <;> cases hstructural
    apply wp_statement_directive hd hfind
    rw [hspans.skipStatement_congr]
    exact wp_mono (cursor_perform henv hstructural hopen) (fun _ _ ht _ => ht) fun _ _ _ => trivial
  | none =>
    have hoperation : EndsAsSkipped operation := inferInstance
    exact wp_statement_of_none hd rfl (fun _ ha => ends_assignment ha)
      fun _ _ => hoperation.ends env { s with parts := #[] }

end LineM

/-- **Skipping a statement ends where executing it ends.** Take any state in the
execution of a line, with the cursor at an assignment, an instruction, a macro call
or a directive other than a label, a brace, a separator, a comment or one that
structures the text. If the statement succeeds, it ends at the very place that
skipping it from the same start leads to, whatever is quoted or bracketed in it. -/
theorem executed_ends_as_skipped {library : Library} {allowance : Allowance} {bound index : Nat}
    {s t : LineState} {goesOn : Bool}
    (hstatement : ∀ d, s.cursor.directive? = some d → d.isStructural = false ∧ d.isOpenEnded = false)
    (hrun : LineM.statement (.ofLine library allowance bound index) s = .ok goesOn t) :
    t.cursor = s.cursor.skipStatement :=
  LineM.of_wp_ok (LineM.cursor_statement Setting.isTame_ofLine hstatement) hrun

/-- Whether the statement at the cursor is executed without a problem. -/
def LineState.succeeds (env : Setting) (s : LineState) : Bool :=
  match LineM.statement env s with
  | .ok _ _ => true
  | .error _ _ => false

theorem LineState.exists_of_succeeds {env : Setting} {s : LineState} (h : s.succeeds env = true) :
    ∃ goesOn t, LineM.statement env s = .ok goesOn t := by
  unfold succeeds at h
  cases hrun : LineM.statement env s with
  | ok goesOn t => exact ⟨goesOn, t, rfl⟩
  | error stop t =>
    rw [hrun] at h
    cases h

/-- A line before a statement with separators in quotes, in character literals and
in brackets. -/
def quotedSample : LineState :=
  ⟨.ofText "PRINT \"a:b\"\"(;\" , ':' ,('\"') : NOP", #[], #[],
    .start (.ofText 0 "" 0 none) [], .start ⟨[], 0, none⟩ 0 .never 0⟩

theorem executed_ends_as_skipped_quoted : ∃ goesOn t,
    (∀ d, quotedSample.cursor.directive? = some d → d.isStructural = false ∧ d.isOpenEnded = false) ∧
      quotedSample.walk.isLive = true ∧
      LineM.statement (.ofLine (.ofFiles []) fullAllowance 1 0) quotedSample = .ok goesOn t ∧
      t.cursor = quotedSample.cursor.skipStatement ∧ t.cursor.rest = ": NOP".toList := by
  have hprint : quotedSample.cursor.directive? = some .print := by decide +kernel
  have hplain : ∀ d, quotedSample.cursor.directive? = some d → d.isStructural = false ∧ d.isOpenEnded = false := by
    intro d hd
    obtain rfl := Option.some.inj (hprint.symm.trans hd)
    decide
  have hends : quotedSample.cursor.skipStatement.rest = ": NOP".toList := by decide +kernel
  have hruns : quotedSample.succeeds (.ofLine (.ofFiles []) fullAllowance 1 0) = true := by decide +kernel
  obtain ⟨goesOn, t, hrun⟩ := LineState.exists_of_succeeds hruns
  have hplace := executed_ends_as_skipped hplain hrun
  exact ⟨goesOn, t, hplain, by decide +kernel, hrun, hplace, hplace ▸ hends⟩

end Asm6502
