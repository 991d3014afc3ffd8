/-
# Loops over a line

The statements of a line, the items of `EQUB` and `ASSERT`, those of `PRINT`, the
parameters of a macro and the arguments of a call are read in loops. Each round
of a loop ends it or leaves less of the line, so the steps that it is given do
not run out.

Key definitions: `LineM.IsRound`, `LineM.statementRound`,
`LineM.separatedRound`, `LineM.printRound`, `LineM.parameterRound`,
`LineM.bindingRound`.
Key theorems: `LineM.isRound_statements`, `LineM.loopsAdvance`.
-/
import Asm6502.Proofs.Statement.Calls
import Asm6502.Proofs.Walk.Stage

namespace Asm6502.LineM

/-- Whether a loop, which is given a number of steps, is made of rounds: each one
goes on to the next with less of the line, or ends with a result. -/
structure IsRound {α β : Type} (loop : Nat → α → LineM β) (round : α → LineM (α ⊕ β)) : Prop where
  unfolds : ∀ n a, loop (n + 1) a = round a >>= Sum.elim (loop n) pure
  consumes : ∀ env s a b t, env.IsTame → round a env s = .ok (.inl b) t →
    t.cursor.rest.length < s.cursor.rest.length
  ends : ∀ env s a, env.IsTame → s.cursor.rest = [] → loop 0 a env s = loop 1 a env s

variable {α β : Type} {env : Setting} {s : LineState} {loop : Nat → α → LineM β} {round : α → LineM (α ⊕ β)}

/-! ### Rounds -/

/-- One statement. -/
def statementRound (_ : Unit) : LineM (Unit ⊕ Unit) := do
  skipBlanks
  if (← getCursor).rest.isEmpty then return .inr ()
  if ← statement then return .inl () else return .inr ()

/-- One item of those that are separated by commas. -/
def separatedRound (item : LineM Unit) (_ : Unit) : LineM (Unit ⊕ Unit) := do
  item
  if ← atEnd then return .inr ()
  expectComma
  return .inl ()

/-- One value of a `PRINT`. -/
def printRound (before : List String) : LineM (List String ⊕ List String) := do
  if ← atEnd then return .inr before
  if !(← get).parts.isEmpty then
    expectComma
    skipBlanks
  let hex := (← peek) == some '~'
  if hex then advance 1
  let e ← evaluate
  pushPart e.node
  return .inl (before ++ [printedText hex e.value])

/-- One parameter of a macro. -/
def parameterRound (before : List String) : LineM (List String ⊕ List String) := do
  if ← atEnd then return .inr before
  if !before.isEmpty || (← peek) == some ',' then expectComma
  skipBlanks
  let start ← column
  let name ← expectName
  pushPart (.leaf .symbol name start)
  return .inl (before ++ [name])

/-- One argument of a macro call. -/
def bindingRound : Bool × List String → LineM ((Bool × List String) ⊕ Unit)
  | (_, []) => return .inr ()
  | (first, parameter :: parameters) => do
    if ← atEnd then fail .parameterCount (← column)
    if !first then expectComma
    let full := fullName parameter (← getWalk).frames
    if ← isSecondPass then modifySymbols (·.erase full)
    let e ← evaluate
    pushPart e.node
    if e.known then modifySymbols (·.add full e.value false none)
    return .inl (false, parameters)

/-! ### What a round leaves of the line -/

/-- A round goes on only if it leaves less of the line. -/
abbrev GoesOn (n : Nat) (next : α ⊕ β) (c : Cursor) : Prop := next.isLeft = true → c.rest.length < n

theorem Moves.consumes {m : LineM (α ⊕ β)} (h : ∀ n, Moves (Within n) m (GoesOn n)) {a : α} {t : LineState}
    (hround : m env s = .ok (.inl a) t) : t.cursor.rest.length < s.cursor.rest.length :=
  of_wp_ok (h _ env s (Nat.le_refl _)) hround rfl

/-! ### The loops -/

theorem bind_ite {c : Prop} [Decidable c] (x y : LineM β) (f : β → LineM α) :
    (if c then x else y) >>= f = if c then x >>= f else y >>= f := by
  split_ifs <;> rfl

theorem skipBlanks_of_nil {c : Cursor} (h : c.rest = []) : c.skipBlanks = c := by
  unfold Cursor.skipBlanks
  rw [h]
  rfl

theorem atEnd_of_nil (h : s.cursor.rest = []) : atEnd env s = .ok true s := by
  have hatEnd : atEnd env s =
      .ok s.cursor.skipBlanks.atStatementEnd { s with cursor := s.cursor.skipBlanks } := rfl
  rw [hatEnd, skipBlanks_of_nil h, Cursor.atStatementEnd, skipBlanks_of_nil h, h]

theorem isRound_statements : IsRound (fun n _ => statementsFrom n) statementRound where
  unfolds n _ := by
    simp only [statementsFrom, statementRound, bind_assoc]
    refine bind_congr fun _ => bind_congr fun cursor => ?_
    cases cursor.rest.isEmpty with
    | true => rfl
    | false =>
      simp only [Bool.not_false, if_true, Bool.false_eq_true, if_false, bind_assoc]
      refine bind_congr fun goesOn => ?_
      cases goesOn <;> rfl
  consumes env s a b t henv hround := by
    refine of_wp_ok (Q := fun next t => next.isLeft = true → t.cursor.rest.length < s.cursor.rest.length)
      (E := fun _ _ => True) ?_ hround rfl
    unfold statementRound
    simp only [wp_bind, wp_skipBlanks, wp_getCursor, wp_ite]
    split_ifs with hrest
    · exact fun h => by cases h
    have hsome : s.cursor.skipBlanks.rest ≠ [] := by simpa using hrest
    unfold wp
    cases hrun : statement env { s with cursor := s.cursor.skipBlanks } with
    | error stop t => trivial
    | ok goesOn t =>
      have hless := rest_lt_of_statement henv hsome hrun
      cases goesOn with
      | true => exact fun _ => hless
      | false => exact fun h => by cases h
  ends env s a henv hrest := by
    rw [statementsFrom_succ, skipBlanks_of_nil hrest, if_pos hrest]
    rfl

theorem isRound_separated {item : LineM Unit} (hitem : ∀ n, Moves (Within n) item fun _ c => c.rest.length < n) :
    IsRound (fun n _ => eachSeparated item n) (separatedRound item) where
  unfolds n _ := by
    simp only [eachSeparated, separatedRound, bind_assoc]
    refine bind_congr fun _ => bind_congr fun ended => ?_
    cases ended with
    | true => rfl
    | false =>
      simp only [Bool.not_false, if_true, Bool.false_eq_true, if_false, bind_assoc]
      rfl
  consumes env s a b t _ hround := by
    refine Moves.consumes (fun n => ?_) hround
    cases n with
    | zero => exact moves_bind (hitem 0) fun _ _ _ h => absurd h (Nat.not_lt_zero _)
    | succ n =>
      refine moves_bind ((hitem (n + 1)).imp (fun _ h => h) fun _ _ h => Nat.le_of_lt_succ h) fun _ => ?_
      refine moves_bind moves_atEnd fun ended => ?_
      cases ended with
      | true => exact moves_pure fun _ _ h => by cases h
      | false =>
        refine moves_bind (moves_expectComma.imp (fun _ h => h.1) fun _ _ h => h) fun _ => ?_
        exact moves_pure fun _ h _ => Nat.lt_succ_of_le h
  ends env s a _ hrest := by
    -- with nothing left there is no item
    have hnone := hitem 0 env s (Nat.le_of_eq (List.length_eq_zero_iff.mpr hrest))
    change item env s = (item >>= _) env s
    rw [bind_eq_resume]
    cases hrun : item env s with
    | ok a t => exact absurd (of_wp_ok hnone hrun) (Nat.not_lt_zero _)
    | error stop t => rfl

theorem isRound_print : IsRound (fun n before => printItems before n) printRound where
  unfolds n before := by
    simp only [printItems, printRound, bind_assoc, bind_ite, pure_bind]
    rfl
  consumes env s before b t _ hround := by
    refine Moves.consumes (fun n => ?_) hround
    have hitem (hex : Bool) : Moves (Within n) (do
        let e ← evaluate
        pushPart e.node
        return .inl (before ++ [printedText hex e.value]) : LineM (List String ⊕ List String)) (GoesOn n) :=
      moves_bind moves_evaluate fun _ => moves_bind moves_keeps fun _ => moves_pure fun _ h _ => h
    have hvalue : Moves (Within n) (do
        let hex := (← peek) == some '~'
        if hex then advance 1
        let e ← evaluate
        pushPart e.node
        return .inl (before ++ [printedText hex e.value]) : LineM (List String ⊕ List String)) (GoesOn n) :=
      moves_bind moves_keeps fun _ => moves_when moves_advance (fun _ h => h) (hitem _)
    refine moves_bind moves_atEnd fun ended => ?_
    cases ended with
    | true => exact moves_pure fun _ _ h => by cases h
    | false =>
      refine moves_bind moves_keeps fun st => ?_
      cases st.parts.isEmpty with
      | true => exact fun env s hs => hvalue env s hs.1
      | false =>
        refine moves_bind (moves_expectComma.imp (fun _ h => h.1) fun _ _ h => h) fun _ => ?_
        exact moves_bind moves_skipBlanks fun _ => hvalue
  ends env s before _ hrest := by
    have h : atEnd env s = .ok true s := atEnd_of_nil hrest
    change printItems before 0 env s = printItems before 1 env s
    rw [printItems, printItems, bind_of_ok h]
    rfl

theorem isRound_parameters : IsRound (fun n before => macroParameters before n) parameterRound where
  unfolds n before := by
    simp only [macroParameters, parameterRound, bind_assoc, bind_ite, pure_bind]
    rfl
  consumes env s before b t _ hround := by
    refine Moves.consumes (fun n => ?_) hround
    have hname : Moves (Within n) (do
        skipBlanks
        let start ← column
        let name ← expectName
        pushPart (.leaf .symbol name start)
        return .inl (before ++ [name]) : LineM (List String ⊕ List String)) (GoesOn n) := by
      refine moves_bind moves_skipBlanks fun _ => moves_bind moves_keeps fun _ => ?_
      refine moves_bind moves_expectName fun _ => moves_bind moves_keeps fun _ => ?_
      exact moves_pure fun _ h _ => h.1
    refine moves_bind moves_atEnd fun ended => ?_
    cases ended with
    | true => exact moves_pure fun _ _ h => by cases h
    | false =>
      refine moves_bind moves_keeps fun _ => ?_
      exact moves_when (moves_expectComma.imp (fun _ h => h.1) fun _ _ h => h) (fun _ h => h.1) hname
  ends env s before _ hrest := by
    have h : atEnd env s = .ok true s := atEnd_of_nil hrest
    change macroParameters before 0 env s = macroParameters before 1 env s
    rw [macroParameters, macroParameters, bind_of_ok h]
    rfl

theorem isRound_arguments : IsRound (fun _ a => bindEach a.1 a.2) bindingRound where
  unfolds n a := by
    obtain ⟨first, _ | ⟨parameter, parameters⟩⟩ := a
    · rfl
    · simp only [bindEach, bindingRound, bind_assoc, bind_ite, pure_bind]
      rfl
  consumes env s a b t _ hround := by
    refine Moves.consumes (fun n => ?_) hround
    obtain ⟨first, _ | ⟨parameter, parameters⟩⟩ := a
    · exact moves_pure fun _ _ h => by cases h
    have hbind (full : String) : Moves (Within n) (do
        let e ← evaluate
        pushPart e.node
        if e.known then modifySymbols (·.add full e.value false none)
        return .inl (false, parameters) : LineM ((Bool × List String) ⊕ Unit)) (GoesOn n) := by
      refine moves_bind moves_evaluate fun _ => moves_bind moves_keeps fun _ => ?_
      exact moves_when moves_keeps (fun _ h => h) (moves_pure fun _ h _ => h)
    have hargument : Moves (Within n) (do
        let full := fullName parameter (← getWalk).frames
        if ← isSecondPass then modifySymbols (·.erase full)
        let e ← evaluate
        pushPart e.node
        if e.known then modifySymbols (·.add full e.value false none)
        return .inl (false, parameters) : LineM ((Bool × List String) ⊕ Unit)) (GoesOn n) := by
      refine moves_bind moves_keeps fun _ => moves_bind moves_keeps fun _ => ?_
      exact moves_when moves_keeps (fun _ h => h) (hbind _)
    refine moves_bind moves_atEnd fun ended => ?_
    by_cases hended : ended = true
    · rw [if_pos hended]
      exact moves_bind moves_keeps fun _ _ _ _ => trivial
    · rw [if_neg hended]
      exact moves_when (moves_expectComma.imp (fun _ h => h.1) fun _ _ h => h) (fun _ h => h.1) hargument
  ends env s a _ _ := rfl

/-- Every loop over a line, and the one over the tokens of an expression, leaves
less of the line in each round. -/
structure LoopsAdvance : Prop where
  statements : IsRound (fun n _ => statementsFrom n) statementRound
  data : ∀ width, equ width = separated (dataItem width) ∧
    IsRound (fun n _ => eachSeparated (dataItem width) n) (separatedRound (dataItem width))
  assertions : assert = separated assertItem ∧
    IsRound (fun n _ => eachSeparated assertItem n) (separatedRound assertItem)
  printed : IsRound (fun n before => printItems before n) printRound
  parameters : IsRound (fun n before => macroParameters before n) parameterRound
  arguments : IsRound (fun _ a => bindEach a.1 a.2) bindingRound
  tokens : ∀ value depth (c : Cursor) token n, Token.next? value depth c.skipBlanks = some (token, n) →
    (∀ problem, token ≠ .bad problem) → (c.skipBlanks.skip n).rest.length < c.rest.length

theorem loopsAdvance : LoopsAdvance where
  statements := isRound_statements
  data _ := ⟨rfl, isRound_separated fun _ => moves_dataItem⟩
  assertions := ⟨rfl, isRound_separated fun _ => moves_assertItem⟩
  printed := isRound_print
  parameters := isRound_parameters
  arguments := isRound_arguments
  tokens value depth _ _ _ h hbad := Token.length_skip_lt value depth h hbad

end Asm6502.LineM
