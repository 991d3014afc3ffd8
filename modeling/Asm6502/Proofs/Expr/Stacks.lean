/-
# The two stacks at work

What is left of an evaluation at a place depends on the stacks alone:
`Stacks.finish` scans the tokens from there, takes them one by one and gives
the operand that remains. Each kind of token moves the place and changes the
stacks in one way, and each is an equation between what is left before it and
after it.

The stacks are lazy: an operator stays until the next one is seen. Where that
does not bind tighter, applying the operator right away makes no difference
(`Stacks.finish_reduce`).

Key definitions: `Stacks.finish`, `Expr.readingOf?`.
Key theorems: `Stacks.finish_cons`, `Stacks.finish_reduce`,
`Expr.evaluateWith_ok_iff`, `Expr.evaluateText_ok_iff`.
-/
import Asm6502.Expr.Eval
import Asm6502.Proofs.Expr.Scan

namespace Asm6502

/-! ### Evaluations that succeed -/

namespace Eval

theorem bind_ok_iff {x : Eval α} {f : α → Eval β} {s t : Expr.State} {b : β} :
    (x >>= f) s = .ok b t ↔ ∃ a s', x s = .ok a s' ∧ f a s' = .ok b t := by
  show EStateM.bind x f s = .ok b t ↔ _
  unfold EStateM.bind
  cases x s with
  | ok a s' =>
    constructor
    · intro h
      exact ⟨a, s', rfl, h⟩
    · rintro ⟨_, _, h, hf⟩
      obtain ⟨rfl, rfl⟩ := EStateM.Result.ok.inj h
      exact hf
  | error problem s' => simp

theorem pure_ok_iff {a b : α} {s t : Expr.State} :
    (pure a : Eval α) s = .ok b t ↔ a = b ∧ s = t := by
  show EStateM.Result.ok a s = .ok b t ↔ _
  simp

theorem throw_ne_ok {problem : Problem} {b : α} {s t : Expr.State} :
    (throw problem : Eval α) s ≠ .ok b t := by
  show EStateM.Result.error problem s ≠ .ok b t
  simp

theorem ofExcept_ok_iff {e : Except Problem α} {a : α} {s t : Expr.State} :
    ofExcept e s = .ok a t ↔ e = .ok a ∧ s = t := by
  cases e with
  | ok b => simp [ofExcept, pure_ok_iff]
  | error problem => simp [ofExcept, throw_ne_ok]

theorem ofExcept_bind (e : Except Problem α) (f : α → Except Problem β) :
    ofExcept (e >>= f) = ofExcept e >>= fun a => ofExcept (f a) := by
  cases e with
  | ok a => rfl
  | error problem => rfl

end Eval

/-! ### What is left of an evaluation -/

namespace Stacks

variable {inner : TextEvaluator} {ctx : Expr.Context}

/-- The number of brackets that wait. -/
def openBrackets (pending : List Pending) : Nat := pending.countP fun p => !p.isOperator

/-- Takes tokens up to the place where they end: the operand that is left,
whether it is known and that place. -/
def takeAll (inner : TextEvaluator) (ctx : Expr.Context) (tokens : List Token × Cursor) (s : Stacks) :
    Eval (Operand × Bool × Cursor) := do
  let s ← tokens.1.foldlM (take inner ctx) s
  let operand ← Eval.ofExcept (s.result tokens.2.column)
  return (operand, s.known, tokens.2)

/-- What is left of an evaluation with the stacks at a place. -/
def finish (inner : TextEvaluator) (ctx : Expr.Context) (c : Cursor) (s : Stacks) :
    Eval (Operand × Bool × Cursor) :=
  takeAll inner ctx (Token.allFrom s.expectsValue (openBrackets s.pending) c) s

theorem finish_cons {c : Cursor} {s : Stacks} {token : Token} {n : Nat}
    (h : Token.next? s.expectsValue (openBrackets s.pending) c.skipBlanks = some (token, n))
    (hbad : ∀ problem, token ≠ .bad problem) :
    finish inner ctx c s = take inner ctx s token >>= takeAll inner ctx
      (Token.allFrom token.expectsValue (token.depthAfter (openBrackets s.pending))
        (c.skipBlanks.skip n)) := by
  rw [finish, Token.allFrom_cons h hbad]
  simp only [takeAll, List.foldlM_cons, bind_assoc]
  rfl

theorem finish_none {c : Cursor} {s : Stacks}
    (h : Token.next? s.expectsValue (openBrackets s.pending) c.skipBlanks = none) :
    finish inner ctx c s = Eval.ofExcept (s.result c.skipBlanks.column) >>= fun operand =>
      pure (operand, s.known, c.skipBlanks) := by
  rw [finish, Token.allFrom_none h]
  rfl

theorem finish_bad {c : Cursor} {s : Stacks} {problem : Problem} {n : Nat}
    (h : Token.next? s.expectsValue (openBrackets s.pending) c.skipBlanks = some (.bad problem, n)) :
    finish inner ctx c s = throw problem := by
  rw [finish, Token.allFrom_bad h]
  rfl

/-- A token that changes nothing but the stacks. -/
theorem finish_of_take {c : Cursor} {s s' : Stacks} {token : Token} {n : Nat}
    (h : Token.next? s.expectsValue (openBrackets s.pending) c.skipBlanks = some (token, n))
    (htake : take inner ctx s token = pure s') (hvalue : s'.expectsValue = token.expectsValue)
    (hdepth : openBrackets s'.pending = token.depthAfter (openBrackets s.pending)) :
    finish inner ctx c s = finish inner ctx (c.skipBlanks.skip n) s' := by
  have hbad : ∀ problem, token ≠ .bad problem := by
    rintro problem rfl
    have h := congrFun htake default
    cases h
  rw [finish_cons h hbad, htake, pure_bind, finish, hvalue, hdepth]

theorem openBrackets_operator {p : Pending} (h : p.isOperator = true) (pending : List Pending) :
    openBrackets (p :: pending) = openBrackets pending :=
  List.countP_cons_of_neg (by simp [h])

theorem openBrackets_bracket {p : Pending} (h : p.isOperator = false) (pending : List Pending) :
    openBrackets (p :: pending) = openBrackets pending + 1 :=
  List.countP_cons_of_pos (by simp [h])

/-! ### Where a value is expected -/

variable {operands : List Operand} {pending : List Pending} {known : Bool} {c : Cursor}

theorem finish_opening (h : c.skipBlanks.peek = some '(') :
    finish inner ctx c ⟨operands, pending, true, known⟩ =
      finish inner ctx (c.skipBlanks.skip 1)
        ⟨operands, .bracket c.skipBlanks.column :: pending, true, known⟩ :=
  finish_of_take (Token.valueToken?_opening h) rfl rfl (openBrackets_bracket rfl _)

theorem finish_unary {op : UnaryOp} (h : c.skipBlanks.peek = some op.sign) :
    finish inner ctx c ⟨operands, pending, true, known⟩ =
      finish inner ctx (c.skipBlanks.skip 1)
        ⟨operands, .unary op c.skipBlanks.column :: pending, true, known⟩ :=
  finish_of_take (Token.valueToken?_unary h) rfl rfl (openBrackets_operator rfl _)

theorem finish_call {f : Function} (h : Function.find? c.skipBlanks.rest = some f) :
    finish inner ctx c ⟨operands, pending, true, known⟩ =
      finish inner ctx (c.skipBlanks.skip (f.name.length + 1))
        ⟨operands, .call f 0 c.skipBlanks.column :: pending, true, known⟩ :=
  finish_of_take (Token.valueToken?_call h) rfl rfl (openBrackets_bracket rfl _)

theorem finish_atom {a : Atom} {column n : Nat}
    (h : Token.valueToken? c.skipBlanks = some (.atom a column, n)) :
    finish inner ctx c ⟨operands, pending, true, known⟩ =
      Expr.atomOperand ctx column a >>= fun (operand, sure) =>
        finish inner ctx (c.skipBlanks.skip n) ⟨operand :: operands, pending, false, known && sure⟩ := by
  rw [finish_cons (s := ⟨operands, pending, true, known⟩) h nofun]
  simp only [take, bind_assoc, pure_bind]
  rfl

/-- Where a value is expected, an evaluation succeeds only if one begins. -/
theorem value_of_finish {r : Operand × Bool × Cursor} {s t : Expr.State}
    (h : finish inner ctx c ⟨operands, pending, true, known⟩ s = .ok r t) :
    c.skipBlanks.peek = some '(' ∨ (∃ op, c.skipBlanks.peek = some (UnaryOp.sign op)) ∨
    (∃ f, Function.find? c.skipBlanks.rest = some f) ∨
    ∃ a column n, Token.valueToken? c.skipBlanks = some (.atom a column, n) := by
  cases htoken : Token.valueToken? c.skipBlanks with
  | none =>
    rw [finish_none (s := ⟨operands, pending, true, known⟩) htoken, Eval.bind_ok_iff] at h
    obtain ⟨_, _, h, -⟩ := h
    have h := (Eval.ofExcept_ok_iff.mp h).1
    simp only [result, if_true] at h
    split at h <;> cases h
  | some pair =>
    obtain ⟨token, n⟩ := pair
    rcases Token.valueToken?_cases htoken with ⟨-, -, h⟩ | ⟨op, -, -, h⟩ | ⟨f, -, -, h⟩ | ⟨a, column, rfl⟩ |
      ⟨problem, rfl⟩
    · exact Or.inl h
    · exact Or.inr (Or.inl ⟨op, h⟩)
    · exact Or.inr (Or.inr (Or.inl ⟨f, h⟩))
    · exact Or.inr (Or.inr (Or.inr ⟨a, column, n, rfl⟩))
    · rw [finish_bad (s := ⟨operands, pending, true, known⟩) htoken] at h
      cases h

/-! ### Where an operator is expected -/

theorem finish_closing_bracket {column : Nat} (h : c.skipBlanks.peek = some ')') :
    finish inner ctx c ⟨operands, .bracket column :: pending, false, known⟩ =
      finish inner ctx (c.skipBlanks.skip 1) ⟨operands, pending, false, known⟩ := by
  have hdepth := openBrackets_bracket (p := .bracket column) rfl pending
  have htoken := Token.operatorToken?_closing (openBrackets pending) h
  rw [← hdepth] at htoken
  exact finish_of_take htoken rfl rfl (by rw [hdepth]; rfl)

theorem finish_comma_call {f : Function} {arguments column : Nat} (h : c.skipBlanks.peek = some ',') :
    finish inner ctx c ⟨operands, .call f arguments column :: pending, false, known⟩ =
      finish inner ctx (c.skipBlanks.skip 1)
        ⟨operands, .call f (arguments + 1) column :: pending, true, known⟩ := by
  have hdepth (n : Nat) := openBrackets_bracket (p := .call f n column) rfl pending
  have htoken := Token.operatorToken?_comma (openBrackets pending) h
  rw [← hdepth arguments] at htoken
  exact finish_of_take htoken rfl rfl (by rw [hdepth, hdepth]; rfl)

theorem finish_closing_call {f : Function} {arguments column : Nat} (h : c.skipBlanks.peek = some ')') :
    finish inner ctx c ⟨operands, .call f arguments column :: pending, false, known⟩ =
      if arguments + 1 ≠ f.arity then throw ⟨.parameterCount, column⟩
      else if operands.length < f.arity then throw ⟨.missingValue, column⟩
      else
        let taken := (operands.take f.arity).reverse
        Expr.callValue inner ctx f (taken.map Operand.value) column >>= fun (value, sure) =>
          finish inner ctx (c.skipBlanks.skip 1)
            ⟨⟨value, .mk .function f.name column (taken.map Operand.node)⟩ :: operands.drop f.arity,
              pending, false, known && sure⟩ := by
  have hdepth := openBrackets_bracket (p := .call f arguments column) rfl pending
  have htoken := Token.operatorToken?_closing (openBrackets pending) h
  rw [← hdepth] at htoken
  have hcollapse : collapse Pending.isOperator (.call f arguments column :: pending) operands =
      .ok (.call f arguments column :: pending, operands) := rfl
  rw [finish_cons (s := ⟨operands, .call f arguments column :: pending, false, known⟩) htoken nofun]
  simp only [hdepth, take, hcollapse, Eval.ofExcept, pure_bind, close]
  by_cases harity : arguments + 1 ≠ f.arity
  · simp only [if_pos harity]
    rfl
  by_cases hlength : operands.length < f.arity
  · simp only [if_neg harity, if_pos hlength]
    rfl
  · simp only [if_neg harity, if_neg hlength, pure_bind, bind_assoc]
    rfl

theorem finish_closing_taken {f : Function} {arguments column : Nat} {taken : List Operand}
    (h : c.skipBlanks.peek = some ')') (harity : arguments + 1 = f.arity)
    (htaken : taken.length = f.arity) :
    finish inner ctx c ⟨taken.reverse ++ operands, .call f arguments column :: pending, false, known⟩ =
      Expr.callValue inner ctx f (taken.map Operand.value) column >>= fun (value, sure) =>
        finish inner ctx (c.skipBlanks.skip 1)
          ⟨⟨value, .mk .function f.name column (taken.map Operand.node)⟩ :: operands,
            pending, false, known && sure⟩ := by
  have hlength : taken.reverse.length = f.arity := by rw [List.length_reverse, htaken]
  rw [finish_closing_call h, if_neg (not_not.mpr harity), if_neg (by simp [htaken])]
  simp only [List.take_left' hlength, List.drop_left' hlength, List.reverse_reverse]

theorem finish_binary {spelling : String} {op : BinaryOp}
    (h : BinaryOp.find? c.skipBlanks.rest = some (spelling, op))
    (htop : ∀ p ∈ pending.head?, p.binds op.precedence = false) :
    finish inner ctx c ⟨operands, pending, false, known⟩ =
      finish inner ctx (c.skipBlanks.skip spelling.length)
        ⟨operands, .binary op spelling c.skipBlanks.column :: pending, true, known⟩ := by
  have hcollapse : collapse (Pending.binds op.precedence) pending operands = .ok (pending, operands) := by
    cases pending with
    | nil => rfl
    | cons p pending => simp [collapse, htop p rfl]
  refine finish_of_take (Token.operatorToken?_binary h) ?_ rfl (openBrackets_operator rfl _)
  simp only [take, hcollapse]
  rfl

/-- An operator on top of what waits can be applied at once if the next operator
does not bind tighter. -/
theorem finish_reduce {p : Pending} {level : Nat} (hp : p.precedence? = some level)
    (hnext : ∀ spelling op, BinaryOp.find? c.skipBlanks.rest = some (spelling, op) →
      op.precedence ≤ level) :
    finish inner ctx c ⟨operands, p :: pending, false, known⟩ =
      Eval.ofExcept (p.reduce operands) >>= fun operands =>
        finish inner ctx c ⟨operands, pending, false, known⟩ := by
  have hoperator : p.isOperator = true := by rw [Pending.isOperator, hp]; rfl
  have hdepth := openBrackets_operator hoperator pending
  have hcollapse {ready : Pending → Bool} (hready : ready p = true) (operands : List Operand) :
      collapse ready (p :: pending) operands = p.reduce operands >>= collapse ready pending := by
    simp [collapse, hready]
  cases htoken : Token.operatorToken? (openBrackets pending) c.skipBlanks with
  | none =>
    have hresult : (Stacks.mk operands (p :: pending) false known).result c.skipBlanks.column =
        p.reduce operands >>= fun operands =>
          (Stacks.mk operands pending false known).result c.skipBlanks.column := by
      simp only [result, hcollapse hoperator, bind_assoc]
      rfl
    have htop : Token.operatorToken? (openBrackets (p :: pending)) c.skipBlanks = none := by
      rw [hdepth, htoken]
    rw [finish_none (s := ⟨operands, p :: pending, false, known⟩) htop, hresult, Eval.ofExcept_bind, bind_assoc]
    refine bind_congr fun operands => ?_
    rw [finish_none (s := ⟨operands, pending, false, known⟩) htoken]
  | some pair =>
    obtain ⟨token, n⟩ := pair
    have htake : take inner ctx ⟨operands, p :: pending, false, known⟩ token =
        Eval.ofExcept (p.reduce operands) >>= fun operands =>
          take inner ctx ⟨operands, pending, false, known⟩ token := by
      rcases Token.operatorToken?_cases htoken with ⟨rfl, -, -⟩ | ⟨rfl, -, -⟩ | ⟨spelling, op, rfl, -, hop⟩
      · simp only [take, hcollapse hoperator, Eval.ofExcept_bind, bind_assoc]
      · simp only [take, hcollapse hoperator, Eval.ofExcept_bind, bind_assoc]
      · have hbinds : p.binds op.precedence = true := by
          simp [Pending.binds, hp, hnext spelling op hop]
        simp only [take, hcollapse hbinds, Eval.ofExcept_bind, bind_assoc]
    have hbad : ∀ problem, token ≠ .bad problem := by
      rcases Token.operatorToken?_cases htoken with ⟨rfl, -, -⟩ | ⟨rfl, -, -⟩ | ⟨_, _, rfl, -, -⟩ <;> nofun
    have hcons (operands : List Operand) :
        finish inner ctx c ⟨operands, pending, false, known⟩ =
          take inner ctx ⟨operands, pending, false, known⟩ token >>= takeAll inner ctx
            (Token.allFrom token.expectsValue (token.depthAfter (openBrackets pending))
              (c.skipBlanks.skip n)) := finish_cons htoken hbad
    have htop : Token.operatorToken? (openBrackets (p :: pending)) c.skipBlanks = some (token, n) := by
      rw [hdepth, htoken]
    rw [finish_cons (s := ⟨operands, p :: pending, false, known⟩) htop hbad, htake, bind_assoc]
    simp only [hdepth, hcons]

theorem finish_reduce_ok_iff {p : Pending} {level : Nat} (hp : p.precedence? = some level)
    (hnext : ∀ spelling op, BinaryOp.find? c.skipBlanks.rest = some (spelling, op) →
      op.precedence ≤ level) {r : Operand × Bool × Cursor} {s t : Expr.State} :
    finish inner ctx c ⟨operands, p :: pending, false, known⟩ s = .ok r t ↔
      ∃ reduced, p.reduce operands = .ok reduced ∧
        finish inner ctx c ⟨reduced, pending, false, known⟩ s = .ok r t := by
  rw [finish_reduce hp hnext, Eval.bind_ok_iff]
  constructor
  · rintro ⟨reduced, s', hok, h⟩
    obtain ⟨hreduce, rfl⟩ := Eval.ofExcept_ok_iff.mp hok
    exact ⟨reduced, hreduce, h⟩
  · rintro ⟨reduced, hreduce, h⟩
    exact ⟨reduced, s, Eval.ofExcept_ok_iff.mpr ⟨hreduce, rfl⟩, h⟩

theorem reduce_unary_iff {op : UnaryOp} {column : Nat} {a : Operand} {reduced : List Operand} :
    (Pending.unary op column).reduce (a :: operands) = .ok reduced ↔
      ∃ value, op.apply a.value = .ok value ∧
        reduced = ⟨value, .mk .function (String.singleton op.sign) column [a.node]⟩ :: operands := by
  simp only [Pending.reduce]
  cases op.apply a.value with
  | ok value => simp [Fault.located, bind, Except.bind, pure, Except.pure, eq_comm]
  | error fault => simp [Fault.located, bind, Except.bind]

theorem reduce_binary_iff {op : BinaryOp} {spelling : String} {column : Nat} {a b : Operand}
    {reduced : List Operand} :
    (Pending.binary op spelling column).reduce (b :: a :: operands) = .ok reduced ↔
      ∃ value, op.apply a.value b.value = .ok value ∧
        reduced = ⟨value, .mk .binaryOp spelling column [a.node, b.node]⟩ :: operands := by
  simp only [Pending.reduce]
  cases op.apply a.value b.value with
  | ok value => simp [Fault.located, bind, Except.bind, pure, Except.pure, eq_comm]
  | error fault => simp [Fault.located, bind, Except.bind]

/-- A bracket that waits must be closed; only one of a call admits a comma. -/
theorem separator_of_finish {p : Pending} (hp : p.isOperator = false)
    (hnext : BinaryOp.find? c.skipBlanks.rest = none) {r : Operand × Bool × Cursor}
    {s t : Expr.State} (h : finish inner ctx c ⟨operands, p :: pending, false, known⟩ s = .ok r t) :
    c.skipBlanks.peek = some ')' ∨
    (c.skipBlanks.peek = some ',' ∧ ∃ f arguments column, p = .call f arguments column) := by
  have hcollapse : collapse Pending.isOperator (p :: pending) operands = .ok (p :: pending, operands) := by
    simp [collapse, hp]
  cases htoken : Token.operatorToken? (openBrackets (p :: pending)) c.skipBlanks with
  | none =>
    rw [finish_none (s := ⟨operands, p :: pending, false, known⟩) htoken, Eval.bind_ok_iff] at h
    obtain ⟨_, _, h, -⟩ := h
    have h := (Eval.ofExcept_ok_iff.mp h).1
    simp only [result, hcollapse] at h
    cases h
  | some pair =>
    obtain ⟨token, n⟩ := pair
    rcases Token.operatorToken?_cases htoken with ⟨-, -, hpeek⟩ | ⟨rfl, -, hpeek⟩ | ⟨_, _, -, -, hop⟩
    · exact Or.inl hpeek
    · refine Or.inr ⟨hpeek, ?_⟩
      rw [finish_cons (s := ⟨operands, p :: pending, false, known⟩) htoken nofun, Eval.bind_ok_iff] at h
      obtain ⟨_, _, h, -⟩ := h
      simp only [take, hcollapse, Eval.ofExcept, pure_bind] at h
      cases p with
      | call f arguments column => exact ⟨f, arguments, column, rfl⟩
      | bracket column => cases h
      | unary op column => cases h
      | binary op spelling column => cases h
    · rw [hnext] at hop
      cases hop

theorem finish_end (operand : Operand) (h : BinaryOp.find? c.skipBlanks.rest = none) :
    finish inner ctx c ⟨[operand], [], false, known⟩ = pure (operand, known, c.skipBlanks) :=
  finish_none (s := ⟨[operand], [], false, known⟩) (Token.operatorToken?_zero h)

end Stacks

namespace Expr

theorem callValue_eval (inner : TextEvaluator) (ctx : Context) (arguments : List Value)
    (column : Nat) :
    callValue inner ctx .eval arguments column =
      match arguments with
      | .str text :: _ => inner text column
      | _ => throw ⟨.typeMismatch, column⟩ := if_pos rfl

theorem callValue_of_ne {f : Function} (hf : f ≠ .eval) (inner : TextEvaluator) (ctx : Context)
    (arguments : List Value) (column : Nat) (s : State) :
    callValue inner ctx f arguments column s =
      match f.apply ctx.clock arguments s.random with
      | .ok (value, random) => .ok (value, true) { s with random }
      | .error fault => .error ⟨fault, column⟩ s := congrFun (if_neg hf) s

theorem evaluateWith_eq_finish (inner : TextEvaluator) (ctx : Context) (c : Cursor) :
    evaluateWith inner ctx c =
      Stacks.finish inner ctx c.skipBlanks Stacks.start >>= fun (operand, known, stop) =>
        pure ⟨operand.value,
          .mk .expression (spelling (c.skipBlanks.upTo stop)) c.skipBlanks.column [operand.node],
          known, stop⟩ := by
  simp only [Stacks.finish, Stacks.takeAll, bind_assoc, pure_bind]
  rfl

theorem evaluateWith_ok_iff {inner : TextEvaluator} {ctx : Context} {c : Cursor} {s t : State}
    {e : Evaluated} :
    evaluateWith inner ctx c s = .ok e t ↔
      ∃ o, Stacks.finish inner ctx c.skipBlanks Stacks.start s = .ok (o, e.known, e.stop) t ∧
        e.value = o.value ∧
        e.node = .mk .expression (spelling (c.skipBlanks.upTo e.stop)) c.skipBlanks.column [o.node] := by
  rw [evaluateWith_eq_finish, Eval.bind_ok_iff]
  constructor
  · rintro ⟨⟨o, known, stop⟩, s', hfinish, h⟩
    obtain ⟨rfl, rfl⟩ := Eval.pure_ok_iff.mp h
    exact ⟨o, hfinish, rfl, rfl⟩
  · obtain ⟨value, node, known, stop⟩ := e
    dsimp only
    rintro ⟨o, hfinish, rfl, rfl⟩
    exact ⟨_, _, hfinish, rfl⟩

theorem evaluateText_ok_iff {ctx : Context} {allowance : Nat} {text : String} {column : Nat}
    {s t : State} {value : Value} {known : Bool} :
    evaluateText ctx (allowance + 1) text column s = .ok (value, known) t ↔
      ∃ o stop, Stacks.finish (evaluateText ctx allowance) ctx (Cursor.ofText text).skipBlanks
          Stacks.start s = .ok (o, known, stop) t ∧
        stop.atStatementEnd = true ∧ value = o.value := by
  have hend (c : Cursor) : endProblem? c = none ↔ c.atStatementEnd = true := by
    unfold endProblem?
    split_ifs with h
    · simp [h]
    · simp [h]
  have hrelocate (e : Eval (Value × Bool)) :
      Eval.relocate column e s = .ok (value, known) t ↔ e s = .ok (value, known) t := by
    unfold Eval.relocate
    cases e s <;> simp
  rw [evaluateText, hrelocate, Eval.bind_ok_iff]
  constructor
  · rintro ⟨e, s', he, h⟩
    obtain ⟨o, hfinish, hvalue, -⟩ := evaluateWith_ok_iff.mp he
    cases hproblem : endProblem? e.stop with
    | some problem =>
      rw [hproblem] at h
      cases h
    | none =>
      rw [hproblem] at h
      obtain ⟨h, rfl⟩ := Eval.pure_ok_iff.mp h
      cases h
      exact ⟨o, e.stop, hfinish, (hend _).mp hproblem, hvalue⟩
  · rintro ⟨o, stop, hfinish, hstop, rfl⟩
    let start := (Cursor.ofText text).skipBlanks
    have hwith := (evaluateWith_ok_iff (e := ⟨o.value,
      .mk .expression (spelling (start.upTo stop)) start.column [o.node], known, stop⟩)).mpr
        ⟨o, hfinish, rfl, rfl⟩
    refine ⟨_, t, hwith, ?_⟩
    simp only [(hend stop).mpr hstop]
    rfl

/-- What an evaluation gives, without the tree. -/
def readingOf? : EStateM.Result Problem State Evaluated → Option (Value × Bool)
  | .ok e _ => some (e.value, e.known)
  | .error _ _ => none

theorem exists_of_readingOf? {r : EStateM.Result Problem State Evaluated} {value : Value} {known : Bool}
    (h : readingOf? r = some (value, known)) : ∃ node stop t, r = .ok ⟨value, node, known, stop⟩ t := by
  cases r with
  | ok e t =>
    cases h
    exact ⟨_, _, _, rfl⟩
  | error problem t => cases h

end Expr
end Asm6502
