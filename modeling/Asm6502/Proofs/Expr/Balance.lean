/-
# The two stacks stay balanced

Every operand on the stack is spoken for. A binary operator that waits has its left
operand there, a call has the arguments read so far, and where an operator is
expected next the latest operand comes on top. This count is kept by each token that
a scan of the line can bring, so no operator is ever applied to fewer operands than
it takes, and an expression that has ended leaves one.

Key definitions: `Pending.heldBy`, `Pending.operandCount`, `Stacks.IsBalanced`.
Key theorems: `collapse_length`, `Stacks.IsBalanced.take`,
`Stacks.isBalanced_foldlM`, `Stacks.operands_suffice`.
-/
import Asm6502.Proofs.Expr.Stacks

namespace Asm6502

namespace Pending

/-- How many operands below the latest are set apart for what waits. -/
def held : Pending → Nat
  | binary _ _ _ => 1
  | call _ arguments _ => arguments
  | bracket _ | unary _ _ => 0

/-- How many are set apart for all that waits. -/
def heldBy : List Pending → Nat
  | [] => 0
  | p :: pending => p.held + heldBy pending

@[simp]
theorem heldBy_cons (p : Pending) (pending : List Pending) : heldBy (p :: pending) = p.held + heldBy pending := rfl

theorem heldBy_append (pending rest : List Pending) : heldBy (pending ++ rest) = heldBy pending + heldBy rest := by
  induction pending with
  | nil => rw [List.nil_append, heldBy, Nat.zero_add]
  | cons p pending ih => rw [List.cons_append, heldBy_cons, heldBy_cons, ih, Nat.add_assoc]

/-- How many operands an operator takes. -/
def operandCount : Pending → Nat
  | unary _ _ => 1
  | binary _ _ _ => 2
  | bracket _ | call _ _ _ => 0

theorem operandCount_eq {p : Pending} (h : p.isOperator = true) : p.operandCount = p.held + 1 := by
  cases p with
  | bracket column => cases h
  | call f arguments column => cases h
  | unary op column => rfl
  | binary op spelling column => rfl

theorem length_of_reduce {p : Pending} {operands reduced : List Operand} (h : p.reduce operands = .ok reduced) :
    reduced.length + p.held = operands.length := by
  unfold reduce at h
  split at h
  · obtain ⟨_, -, rfl⟩ := Stacks.reduce_unary_iff.mp h
    rfl
  · obtain ⟨_, -, rfl⟩ := Stacks.reduce_binary_iff.mp h
    rfl
  · cases h

end Pending

/-- Whatever is applied, an operand goes for each that an operator held. -/
theorem collapse_length {ready : Pending → Bool} {pending pending' : List Pending} {operands operands' : List Operand}
    (h : collapse ready pending operands = .ok (pending', operands')) :
    operands'.length + Pending.heldBy pending = operands.length + Pending.heldBy pending' := by
  induction pending generalizing operands with
  | nil =>
    cases h
    rfl
  | cons p pending ih =>
    rw [collapse] at h
    split_ifs at h with hready
    · cases hreduce : p.reduce operands with
      | error problem =>
        rw [hreduce] at h
        cases h
      | ok reduced =>
        rw [hreduce] at h
        have hlength := Pending.length_of_reduce hreduce
        have hrest := ih h
        rw [Pending.heldBy_cons]
        omega
    · cases h
      rfl

namespace Stacks

/-- The operands are those held by what waits and, where an operator is expected
next, one more. -/
def IsBalanced (s : Stacks) : Prop :=
  s.operands.length = Pending.heldBy s.pending + if s.expectsValue then 0 else 1

theorem isBalanced_start : start.IsBalanced := rfl

variable {inner : TextEvaluator} {ctx : Expr.Context} {s t : Stacks} {x y : Expr.State}

/-- Operators are applied only where one is expected next, so one operand stays for
what is below them. -/
theorem IsBalanced.collapse (h : s.IsBalanced) (hvalue : s.expectsValue = false) {ready : Pending → Bool}
    {pending : List Pending} {operands : List Operand}
    (hcollapse : collapse ready s.pending s.operands = .ok (pending, operands)) :
    operands.length = Pending.heldBy pending + 1 := by
  have hlength := collapse_length hcollapse
  rw [IsBalanced, hvalue, if_neg Bool.false_ne_true] at h
  omega

/-- What is left on top is no operator if all were to be applied. -/
theorem isOperator_of_collapse {pending rest : List Pending} {p : Pending} {operands operands' : List Operand}
    (h : collapse Pending.isOperator pending operands = .ok (p :: rest, operands')) : p.isOperator = false := by
  induction pending generalizing operands with
  | nil => cases h
  | cons q pending ih =>
    rw [Asm6502.collapse] at h
    split_ifs at h with hq
    · cases hreduce : q.reduce operands with
      | error problem =>
        rw [hreduce] at h
        cases h
      | ok reduced =>
        rw [hreduce] at h
        exact ih h
    · cases h
      exact Bool.not_eq_true _ ▸ hq

/-- Closing a call puts its value in the place of its arguments. -/
theorem isBalanced_of_close {known : Bool} {pending : List Pending} {operands : List Operand}
    (hlength : operands.length = Pending.heldBy pending + 1)
    (htop : ∀ p ∈ pending.head?, p.isOperator = false) (h : close inner ctx known pending operands x = .ok t y) :
    t.IsBalanced ∧ t.expectsValue = false := by
  cases pending with
  | nil =>
    obtain ⟨rfl, -⟩ := Eval.pure_ok_iff.mp h
    exact ⟨hlength, rfl⟩
  | cons p pending =>
    rw [Pending.heldBy_cons] at hlength
    cases p with
    | unary op column => cases htop _ rfl
    | binary op spelling column => cases htop _ rfl
    | bracket column =>
      obtain ⟨rfl, -⟩ := Eval.pure_ok_iff.mp h
      exact ⟨hlength.trans (by rw [Pending.held, Nat.zero_add]; rfl), rfl⟩
    | call f arguments column =>
      rw [close] at h
      by_cases harity : arguments + 1 ≠ f.arity
      · simp only [if_pos harity] at h
        cases h
      by_cases hfew : operands.length < f.arity
      · simp only [if_neg harity, if_pos hfew] at h
        cases h
      simp only [if_neg harity, if_neg hfew] at h
      obtain ⟨value, _, -, h⟩ := Eval.bind_ok_iff.mp h
      obtain ⟨rfl, -⟩ := Eval.pure_ok_iff.mp h
      have hheld : (Pending.call f arguments column).held = arguments := rfl
      refine ⟨?_, rfl⟩
      simp only [IsBalanced, List.length_cons, List.length_drop, Bool.false_eq_true, if_false]
      omega

/-- A token that is found where the stacks stand keeps them balanced. -/
theorem IsBalanced.take (h : s.IsBalanced) {depth n : Nat} {c : Cursor} {token : Token}
    (hnext : Token.next? s.expectsValue depth c = some (token, n)) (htake : take inner ctx s token x = .ok t y) :
    t.IsBalanced ∧ t.expectsValue = token.expectsValue := by
  obtain ⟨operands, pending, value, known⟩ := s
  cases value with
  | true =>
    rcases Token.valueToken?_cases hnext with ⟨rfl, -, -⟩ | ⟨op, rfl, -, -⟩ | ⟨f, rfl, -, -⟩ | ⟨a, column, rfl⟩ |
      ⟨problem, rfl⟩
    · obtain ⟨rfl, -⟩ := Eval.pure_ok_iff.mp htake
      exact ⟨by simpa [IsBalanced, Pending.held] using h, rfl⟩
    · obtain ⟨rfl, -⟩ := Eval.pure_ok_iff.mp htake
      exact ⟨by simpa [IsBalanced, Pending.held] using h, rfl⟩
    · obtain ⟨rfl, -⟩ := Eval.pure_ok_iff.mp htake
      exact ⟨by simpa [IsBalanced, Pending.held] using h, rfl⟩
    · obtain ⟨found, _, -, hpush⟩ := Eval.bind_ok_iff.mp htake
      obtain ⟨rfl, -⟩ := Eval.pure_ok_iff.mp hpush
      exact ⟨by simpa [IsBalanced] using h, rfl⟩
    · cases htake
  | false =>
    rcases Token.operatorToken?_cases hnext with ⟨rfl, -, -⟩ | ⟨rfl, -, -⟩ | ⟨spelling, op, rfl, -, -⟩
    · obtain ⟨⟨pending', operands'⟩, _, hcollapse, hclose⟩ := Eval.bind_ok_iff.mp htake
      have hcollapse := (Eval.ofExcept_ok_iff.mp hcollapse).1
      refine isBalanced_of_close (h.collapse rfl hcollapse) (fun p hp => ?_) hclose
      obtain ⟨rest, rfl⟩ := List.head?_eq_some_iff.mp hp
      exact isOperator_of_collapse hcollapse
    · obtain ⟨⟨pending', operands'⟩, _, hcollapse, hnext⟩ := Eval.bind_ok_iff.mp htake
      have hlength := h.collapse rfl (Eval.ofExcept_ok_iff.mp hcollapse).1
      rcases pending' with _ | ⟨column | ⟨f, arguments, column⟩ | ⟨op, column⟩ | ⟨op, spelling, column⟩, rest⟩
      · cases hnext
      · cases hnext
      · obtain ⟨rfl, -⟩ := Eval.pure_ok_iff.mp hnext
        refine ⟨?_, rfl⟩
        simp only [Pending.heldBy_cons, Pending.held] at hlength
        simp only [IsBalanced, Pending.heldBy_cons, Pending.held, if_true]
        omega
      · cases hnext
      · cases hnext
    · obtain ⟨⟨pending', operands'⟩, _, hcollapse, hpush⟩ := Eval.bind_ok_iff.mp htake
      have hlength := h.collapse rfl (Eval.ofExcept_ok_iff.mp hcollapse).1
      obtain ⟨rfl, -⟩ := Eval.pure_ok_iff.mp hpush
      refine ⟨?_, rfl⟩
      simp only [IsBalanced, Pending.heldBy_cons, Pending.held, if_true]
      omega

/-- The stacks are balanced after any number of the tokens that a scan finds. -/
theorem isBalanced_foldlM {steps depth : Nat} {c : Cursor} {tokens : List Token} (hs : s.IsBalanced)
    (htokens : tokens <+: (Token.scanFrom steps s.expectsValue depth c).1)
    (hrun : tokens.foldlM (Stacks.take inner ctx) s x = .ok t y) : t.IsBalanced := by
  induction steps generalizing tokens s depth c x with
  | zero =>
    obtain rfl := List.prefix_nil.mp htokens
    obtain ⟨rfl, -⟩ := Eval.pure_ok_iff.mp hrun
    exact hs
  | succ steps ih =>
    cases tokens with
    | nil =>
      obtain ⟨rfl, -⟩ := Eval.pure_ok_iff.mp hrun
      exact hs
    | cons token tokens =>
      rw [List.foldlM_cons] at hrun
      obtain ⟨u, z, htake, hrest⟩ := Eval.bind_ok_iff.mp hrun
      cases hnext : Token.next? s.expectsValue depth c.skipBlanks with
      | none =>
        rw [Token.scanFrom_none hnext] at htokens
        cases List.prefix_nil.mp htokens
      | some found =>
        obtain ⟨token', n⟩ := found
        by_cases hbad : ∃ problem, token' = .bad problem
        · obtain ⟨problem, rfl⟩ := hbad
          rw [Token.scanFrom_bad hnext] at htokens
          obtain ⟨rfl, -⟩ := List.cons_prefix_cons.mp htokens
          cases htake
        · rw [Token.scanFrom_cons hnext fun problem h => hbad ⟨problem, h⟩] at htokens
          obtain ⟨rfl, htokens⟩ := List.cons_prefix_cons.mp htokens
          obtain ⟨hu, hvalue⟩ := hs.take hnext htake
          rw [← hvalue] at htokens
          exact ih hu htokens hrest

/-- On every line and in every state, after any number of its tokens: the operands
are those that what waits has set apart and, where an operator is expected, one more.
So each operator that is applied finds the operands it takes, so does each call that
is closed with as many arguments as it wants, and once all operators are applied and
no bracket waits, one operand is left. -/
theorem operands_suffice {c : Cursor} {tokens : List Token} (htokens : tokens <+: (Token.scan c).1)
    (hrun : tokens.foldlM (Stacks.take inner ctx) start x = .ok s y) :
    s.operands.length = Pending.heldBy s.pending + (if s.expectsValue then 0 else 1) ∧
    (s.expectsValue = false →
      (∀ applied p rest operands, s.pending = applied ++ p :: rest → p.isOperator = true →
        Asm6502.collapse Pending.isOperator applied s.operands = .ok ([], operands) →
          p.operandCount ≤ operands.length) ∧
      (∀ f arguments column rest operands,
        Asm6502.collapse Pending.isOperator s.pending s.operands = .ok (.call f arguments column :: rest, operands) →
          arguments + 1 ≤ operands.length) ∧
      ∀ operands, Asm6502.collapse Pending.isOperator s.pending s.operands = .ok ([], operands) →
        ∃ operand, operands = [operand]) := by
  have hs : s.IsBalanced := isBalanced_foldlM isBalanced_start htokens hrun
  refine ⟨hs, fun hvalue => ⟨?_, ?_, fun operands h => List.length_eq_one_iff.mp (hs.collapse hvalue h)⟩⟩
  · intro applied p rest operands hpending hp h
    have hlength := collapse_length h
    rw [IsBalanced, hvalue, hpending, Pending.heldBy_append, Pending.heldBy_cons] at hs
    rw [Pending.operandCount_eq hp]
    simp only [Pending.heldBy, Bool.false_eq_true, if_false] at hlength hs
    omega
  · intro f arguments column rest operands h
    have hlength := hs.collapse hvalue h
    rw [Pending.heldBy_cons] at hlength
    have hheld : (Pending.call f arguments column).held = arguments := rfl
    omega

/-- At the end of `HI(*+*` the sum waits for the bracket of the call. -/
theorem operands_suffice_open :
    ∃ s : Stacks,
      (Token.scan (.ofText "HI(*+*")).1.foldlM (Stacks.take (Expr.evaluateText default 0) default) start default =
        .ok s default ∧
      s.expectsValue = false ∧ s.operands.length = 2 ∧ Pending.heldBy s.pending = 1 ∧
      (Pending.binary .add "+" 4).operandCount ≤ s.operands.length := by
  let counter (column : Nat) : Operand := ⟨.ofNat 0, .leaf .value "*" column⟩
  let s : Stacks := ⟨[counter 5, counter 3], [.binary .add "+" 4, .call .high 0 0], false, true⟩
  have hscan : (Token.scan (.ofText "HI(*+*")).1 =
      [.call .high 0, .atom .counter 3, .binary .add "+" 4, .atom .counter 5] := by rfl
  have hrun : (Token.scan (.ofText "HI(*+*")).1.foldlM (Stacks.take (Expr.evaluateText default 0) default) start
      default = .ok s default := by
    rw [hscan]
    rfl
  exact ⟨s, hrun, rfl, rfl, rfl, ((operands_suffice List.prefix_rfl hrun).2 rfl).1 [] _ _ _ rfl rfl rfl⟩

end Stacks
end Asm6502
