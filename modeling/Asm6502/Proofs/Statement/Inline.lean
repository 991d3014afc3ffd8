/-
# Texts written as strings

A text can be written as a string with its quotes doubled, and is then one token of an
expression.

Key definitions: `Literal.doubled`.
Key theorems: `Literal.quoted_doubled_append`, `valueToken?_quoted`.
-/
import Asm6502.Proofs.Walk.Skipping
import Asm6502.Proofs.Expr.Span
import Asm6502.Proofs.Expr.Stacks

namespace Asm6502

/-! ### Texts as strings -/

/-- Characters with their quotes doubled. -/
def Literal.doubled : List Char → List Char
  | [] => []
  | c :: cs => if c = '"' then '"' :: '"' :: doubled cs else c :: doubled cs

/-- A string in quotes is read as its text, whatever follows but another quote. -/
theorem Literal.quoted_doubled_append (cs : List Char) {rest : List Char} (hrest : rest.head? ≠ some '"') :
    quoted (doubled cs ++ '"' :: rest) = some (cs, (doubled cs).length + 1) := by
  induction cs with
  | nil =>
    change quoted ('"' :: rest) = some ([], 1)
    rw [quoted]
    intro others h
    rw [h] at hrest
    exact hrest rfl
  | cons c cs ih =>
    unfold doubled
    by_cases hc : c = '"'
    · rw [if_pos hc, hc]
      simp only [List.cons_append, quoted, ih, Option.map_some, List.length_cons]
    · rw [if_neg hc]
      simp only [List.cons_append]
      rw [quoted]
      · simp only [ih, Option.map_some, List.length_cons]
      · intro h
        exact hc h

/-! ### Reading the text -/

/-- A text in quotes is one token, whatever follows but another quote. -/
theorem valueToken?_quoted (text : String) (column : Nat) (rest : List Char) (hrest : rest.head? ≠ some '"') :
    ∃ spelling, Token.valueToken? ⟨column, '"' :: (Literal.doubled text.toList ++ '"' :: rest)⟩ =
      some (.atom (.literal (.str text) spelling) column, (Literal.doubled text.toList).length + 2) := by
  generalize hcs : Literal.doubled text.toList ++ '"' :: rest = cs
  have hstring : Literal.string cs = .ok (.str text, (Literal.doubled text.toList).length + 1) := by
    rw [Literal.string, ← hcs, Literal.quoted_doubled_append _ hrest]
    dsimp only
    rw [String.ofList_toList]
  have hoperand : Token.operand '"' ⟨column, '"' :: cs⟩ =
      Token.ofLiteral ⟨column, '"' :: cs⟩ 1 (Literal.string cs) := rfl
  have hfunction : Function.find? ('"' :: cs) = none := by
    simp [Function.find?, Function.table, startsWith]
  have hlength : 1 + ((Literal.doubled text.toList).length + 1) = (Literal.doubled text.toList).length + 2 := by
    omega
  have htoken : Token.valueToken? ⟨column, '"' :: cs⟩ = some (Token.operand '"' ⟨column, '"' :: cs⟩) := by
    unfold Token.valueToken?
    rw [hfunction]
    rfl
  rw [htoken, hoperand, hstring, ← hlength]
  exact ⟨_, rfl⟩

end Asm6502
