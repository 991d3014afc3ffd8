/-
# Expressions in quotation

`EVAL` of a text in quotes is the expression that the text spells. The text goes
through a string with its quotes doubled and through an evaluation of its own, with
room for one text less; what comes back is the value of the whole expression, or its
fault at the place of the call.

An evaluation with less room goes the same way until it comes to a text that is
nested too deep. So room for one text less makes no difference unless the
expression nests its texts as deep as it may.

Key definitions: `evalOf`, `Expr.evaluateWhole`, `Expr.IsQuotation`.
Key theorems: `Expr.evaluate_succ`, `Expr.evaluate_evalOf`,
`Expr.isQuotation_evalOf`.
-/
import Asm6502.Proofs.Statement.Inline
import Asm6502.Proofs.Walk.Expansion

namespace Asm6502

theorem Eval.bind_congr_left {α β : Type} {x x' : Eval α} {s : Expr.State} (h : x' s = x s) (f : α → Eval β) :
    (x' >>= f) s = (x >>= f) s := by
  change EStateM.bind x' f s = EStateM.bind x f s
  unfold EStateM.bind
  rw [h]

namespace Expr

/-! ### Whole expressions -/

/-- Evaluates an expression that has to reach the end of its statement. -/
def evaluateWhole (ctx : Context) (allowance : Nat) (c : Cursor) : Eval Evaluated := do
  let e ← evaluate ctx allowance c
  match endProblem? e.stop with
  | some problem => throw problem
  | none => return e

/-- What the text of an `EVAL` at a column comes to, if as an expression of its own
it comes to `result`. -/
def quotes (column : Nat) : EStateM.Result Problem State Evaluated → EStateM.Result Problem State (Value × Bool)
  | .ok e t => .ok (e.value, e.known) t
  | .error problem t => .error ⟨problem.fault, column⟩ t

/-- A text is evaluated as a whole expression with room for one text less. -/
theorem evaluateText_succ (ctx : Context) (n : Nat) (text : String) (column : Nat) (s : State) :
    evaluateText ctx (n + 1) text column s = quotes column (evaluateWhole ctx n (.ofText text) s) := by
  unfold evaluateWhole
  change Eval.relocate column (EStateM.bind (evaluate ctx n (.ofText text)) _) s =
    quotes column (EStateM.bind (evaluate ctx n (.ofText text)) _ s)
  unfold Eval.relocate EStateM.bind
  cases evaluate ctx n (.ofText text) s with
  | error problem t => rfl
  | ok e t =>
    dsimp only
    cases endProblem? e.stop with
    | none => rfl
    | some problem => rfl

variable {ctx : Context}

/-! ### Room for one text less -/

/-- A token at which two ways to evaluate texts part: it closes an `EVAL` of a text
for which they differ. -/
structure Parts (inner inner' : TextEvaluator) (st : Stacks) (s : State) (token : Token) (column : Nat)
    (text : String) : Prop where
  closes : ∃ closing pending node operands, token = .closing closing ∧
    collapse Pending.isOperator st.pending st.operands =
      .ok (.call .eval 0 column :: pending, ⟨.str text, node⟩ :: operands)
  differs : inner' text column s ≠ inner text column s

/-- A call comes to the same, unless it is an `EVAL` of a text. -/
theorem callValue_eq_or (inner inner' : TextEvaluator) (ctx : Context) (s : State) (f : Function)
    (arguments : List Value) (column : Nat) :
    callValue inner' ctx f arguments column s = callValue inner ctx f arguments column s ∨
      ∃ text rest, f = .eval ∧ arguments = .str text :: rest ∧ inner' text column s ≠ inner text column s := by
  by_cases hf : f = .eval
  · subst hf
    rw [callValue_eval, callValue_eval]
    cases arguments with
    | nil => exact Or.inl rfl
    | cons value rest =>
      cases value with
      | num n => exact Or.inl rfl
      | str text =>
        by_cases h : inner' text column s = inner text column s
        · exact Or.inl h
        · exact Or.inr ⟨text, rest, rfl, rfl, h⟩
  · rw [callValue_of_ne hf, callValue_of_ne hf]
    exact Or.inl rfl

/-- Closing a bracket comes to the same, unless it is that of an `EVAL` of a text. -/
theorem close_eq_or (inner inner' : TextEvaluator) (ctx : Context) (s : State) (known : Bool)
    (pending : List Pending) (operands : List Operand) :
    Stacks.close inner' ctx known pending operands s = Stacks.close inner ctx known pending operands s ∨
      ∃ column text rest node others, pending = .call .eval 0 column :: rest ∧
        operands = ⟨.str text, node⟩ :: others ∧ inner' text column s ≠ inner text column s := by
  cases pending with
  | nil => exact Or.inl rfl
  | cons p rest =>
    cases p with
    | bracket column => exact Or.inl rfl
    | unary op column => exact Or.inl rfl
    | binary op spelling column => exact Or.inl rfl
    | call f arguments column =>
      unfold Stacks.close
      dsimp only
      by_cases harity : arguments + 1 ≠ f.arity
      · simp only [if_pos harity]
        exact Or.inl rfl
      by_cases hlength : operands.length < f.arity
      · simp only [if_neg harity, if_pos hlength]
        exact Or.inl rfl
      simp only [if_neg harity, if_neg hlength]
      rcases callValue_eq_or inner inner' ctx s f
        ((operands.take f.arity).reverse.map Operand.value) column with h | ⟨text, others, rfl, htaken, h⟩
      · exact Or.inl (Eval.bind_congr_left h _)
      · right
        obtain rfl : arguments = 0 := by
          have hone : Function.eval.arity = 1 := rfl
          omega
        cases operands with
        | nil => exact absurd (show 0 < 1 by decide) hlength
        | cons operand others =>
          obtain ⟨value, node⟩ := operand
          have hvalue : value = .str text := (List.cons.inj htaken).1
          subst hvalue
          exact ⟨column, text, rest, node, others, rfl, rfl, h⟩

/-- A token is taken alike, unless the ways to evaluate texts part at it. -/
theorem take_eq_or (inner inner' : TextEvaluator) (ctx : Context) (s : State) (st : Stacks) (token : Token) :
    st.take inner' ctx token s = st.take inner ctx token s ∨
      ∃ column text, Parts inner inner' st s token column text := by
  cases token with
  | opening column => exact Or.inl rfl
  | unary op column => exact Or.inl rfl
  | call f column => exact Or.inl rfl
  | atom a column => exact Or.inl rfl
  | comma column => exact Or.inl rfl
  | binary op spelling column => exact Or.inl rfl
  | bad problem => exact Or.inl rfl
  | closing closing =>
    unfold Stacks.take
    dsimp only
    cases hcollapse : collapse Pending.isOperator st.pending st.operands with
    | error problem => exact Or.inl rfl
    | ok both =>
      obtain ⟨pending, operands⟩ := both
      rcases close_eq_or inner inner' ctx s st.known pending operands with
        h | ⟨column, text, rest, node, others, rfl, rfl, h⟩
      · exact Or.inl h
      · exact Or.inr ⟨column, text, ⟨closing, rest, node, others, rfl, hcollapse⟩, h⟩

/-- Tokens are taken alike, unless one is reached at which the ways to evaluate
texts part. -/
theorem foldlM_take_eq_or (inner inner' : TextEvaluator) (ctx : Context) (tokens : List Token) (st : Stacks)
    (s : State) :
    tokens.foldlM (Stacks.take inner' ctx) st s = tokens.foldlM (Stacks.take inner ctx) st s ∨
      ∃ before token after st' t column text, tokens = before ++ token :: after ∧
        before.foldlM (Stacks.take inner ctx) st s = .ok st' t ∧ Parts inner inner' st' t token column text := by
  induction tokens generalizing st s with
  | nil => exact Or.inl rfl
  | cons token tokens ih =>
    rcases take_eq_or inner inner' ctx s st token with
      h | ⟨column, text, hparts⟩
    · rw [List.foldlM_cons, List.foldlM_cons, Eval.bind_congr_left h]
      cases htake : st.take inner ctx token s with
      | error problem t =>
        have hstops (f : Stacks → Eval Stacks) : (st.take inner ctx token >>= f) s = .error problem t := by
          change EStateM.bind _ _ s = _
          unfold EStateM.bind
          rw [htake]
        exact Or.inl (by rw [hstops, hstops])
      | ok st' t =>
        have hgoes (f : Stacks → Eval Stacks) : (st.take inner ctx token >>= f) s = f st' t := by
          change EStateM.bind _ _ s = _
          unfold EStateM.bind
          rw [htake]
        rw [hgoes, hgoes]
        rcases ih st' t with h | ⟨before, other, after, st'', u, column, text, rfl, hbefore, hparts⟩
        · exact Or.inl h
        · refine Or.inr ⟨token :: before, other, after, st'', u, column, text, rfl, ?_, hparts⟩
          rw [List.foldlM_cons, hgoes]
          exact hbefore
    · exact Or.inr ⟨[], token, tokens, st, s, column, text, rfl, rfl, hparts⟩

/-- An expression comes to the same with room for one text less, or its evaluation
gets to a text for which that makes a difference. -/
theorem evaluate_eq_or_opens (ctx : Context) (n m : Nat) (c : Cursor) (s : State) :
    evaluate ctx m c s = evaluate ctx n c s ∨
      ∃ column text t, Opens ctx n c s column text t ∧
        evaluateText ctx m text column t ≠ evaluateText ctx n text column t := by
  rcases foldlM_take_eq_or (evaluateText ctx n) (evaluateText ctx m) ctx
    (Token.scan c.skipBlanks).1 Stacks.start s with
    h | ⟨before, token, after, st, t, column, text, hscan, hbefore, hparts⟩
  · exact Or.inl (Eval.bind_congr_left h _)
  · right
    obtain ⟨closing, pending, node, operands, rfl, hcollapse⟩ := hparts.closes
    exact ⟨column, text, t, ⟨before, closing, after, st, pending, node, operands, hscan, hbefore, hcollapse⟩,
      hparts.differs⟩

/-- Room for one text less makes no difference unless texts are nested as deep as
they may. -/
theorem evaluate_succ (n : Nat) (c : Cursor) (s : State) (hnests : ∀ k, Nests ctx (n + 1) c s k → k ≤ n) :
    evaluate ctx n c s = evaluate ctx (n + 1) c s := by
  induction n generalizing c s with
  | zero =>
    rcases evaluate_eq_or_opens ctx 1 0 c s with h | ⟨column, text, t, hopens, -⟩
    · exact h
    · exact absurd (hnests 1 (.inside hopens .here)) (by decide)
  | succ n ih =>
    rcases evaluate_eq_or_opens ctx (n + 2) (n + 1) c s with h | ⟨column, text, t, hopens, hdiffers⟩
    · exact h
    · have htext : evaluate ctx n (.ofText text) t = evaluate ctx (n + 1) (.ofText text) t :=
        ih _ _ fun k hk => Nat.le_of_succ_le_succ (hnests (k + 1) (.inside hopens hk))
      refine absurd ?_ hdiffers
      rw [evaluateText_succ, evaluateText_succ]
      exact congrArg (quotes column) (Eval.bind_congr_left htext _)

end Expr

/-! ### `EVAL` of a text in quotes -/

/-- The characters of an `EVAL` of a text in quotes. -/
def evalOf (text : String) : List Char := "EVAL(\"".toList ++ (Literal.doubled text.toList ++ ['"', ')'])

namespace Expr

/-- Whether `x'` is what an `EVAL` at a column should come to if its text comes to
`x` as an expression of its own: the same value, equally known, in the same state, or
the same fault. -/
structure IsQuotation (column : Nat) (x x' : EStateM.Result Problem State Evaluated) : Prop where
  value : ∀ e t, x = .ok e t → ∃ e', x' = .ok e' t ∧ e'.value = e.value ∧ e'.known = e.known ∧ e'.stop.rest = []
  fault : ∀ problem t, x = .error problem t → x' = .error ⟨problem.fault, column⟩ t

variable {ctx : Context}

/-- An `EVAL` of a text in quotes hands its text on and ends with it. -/
theorem evaluate_evalOf (ctx : Context) (text : String) (column n : Nat) (s : State) :
    ∃ node stop, stop.rest = [] ∧ evaluate ctx n ⟨column, evalOf text⟩ s =
      (evaluateText ctx n text column >>= fun x => pure ⟨x.1, node, x.2, stop⟩) s := by
  generalize hcs : Literal.doubled text.toList ++ ['"', ')'] = cs
  obtain ⟨spelling, htoken⟩ := valueToken?_quoted text (column + 5) [')'] (by decide)
  rw [hcs] at htoken
  let c : Cursor := ⟨column, evalOf text⟩
  let atText : Cursor := ⟨column + 5, '"' :: cs⟩
  let atClosing : Cursor := atText.skip ((Literal.doubled text.toList).length + 2)
  have hc : c = ⟨column, 'E' :: 'V' :: 'A' :: 'L' :: '(' :: '"' :: cs⟩ := by rw [← hcs]; rfl
  have hstart : c.skipBlanks = c := by rw [hc]; rfl
  have hcall : Function.find? c.skipBlanks.rest = some .eval := by
    rw [hstart, hc]
    simp [Function.find?, Function.table, startsWith]
  have hskip : c.skipBlanks.skip (Function.eval.name.length + 1) = atText := by rw [hstart, hc]; rfl
  have hquote : atText.skipBlanks = atText := rfl
  have hrest : atClosing.rest = [')'] := by
    change ('"' :: cs).drop ((Literal.doubled text.toList).length + 2) = [')']
    rw [← hcs, List.drop_succ_cons, List.drop_append]
    simp
  have hclosing : atClosing.skipBlanks = atClosing := by
    unfold Cursor.skipBlanks
    rw [hrest]
    rfl
  have hpeek : atClosing.skipBlanks.peek = some ')' := by
    rw [hclosing, Cursor.peek, hrest]
    rfl
  have hend : (atClosing.skipBlanks.skip 1).skipBlanks.rest = [] := by
    rw [Cursor.rest_skipBlanks, hclosing]
    change (atClosing.rest.drop 1).dropWhile isBlank = []
    rw [hrest]
    rfl
  let stop : Cursor := (atClosing.skipBlanks.skip 1).skipBlanks
  let call : Node := .mk .function Function.eval.name column [.leaf .value spelling (column + 5)]
  have hfinish : Stacks.finish (evaluateText ctx n) ctx c Stacks.start =
      evaluateText ctx n text column >>= fun x => pure (⟨x.1, call⟩, x.2, stop) := by
    have hcolumn : c.skipBlanks.column = column := by rw [hstart]
    rw [Stacks.start, Stacks.finish_call hcall, hskip, hcolumn, Stacks.finish_atom (by rw [hquote]; exact htoken), hquote]
    change Stacks.finish (evaluateText ctx n) ctx atClosing
      ⟨[⟨.str text, .leaf .value spelling (column + 5)⟩].reverse ++ [], .call .eval 0 column :: [], false, true⟩ = _
    rw [Stacks.finish_closing_taken hpeek rfl rfl, callValue_eval]
    refine bind_congr fun x => ?_
    exact Stacks.finish_end _ (by rw [hend]; rfl)
  refine ⟨.mk .expression (Expr.spelling (c.upTo stop)) column [call], stop, hend, ?_⟩
  change evaluateWith (evaluateText ctx n) ctx c s = _
  rw [evaluateWith_eq_finish, hstart, hfinish, bind_assoc]
  rfl

/-- **`EVAL` of a text in quotes is the expression that the text spells.** -/
theorem isQuotation_evalOf (ctx : Context) (text : String) (column n : Nat) (s : State)
    (hnests : ∀ k, Nests ctx (n + 1) (.ofText text) s k → k < n + 1) :
    IsQuotation column (evaluateWhole ctx (n + 1) (.ofText text) s)
      (evaluate ctx (n + 1) ⟨column, evalOf text⟩ s) := by
  have hroom : evaluateWhole ctx n (.ofText text) s = evaluateWhole ctx (n + 1) (.ofText text) s :=
    Eval.bind_congr_left (evaluate_succ n _ s fun k hk => Nat.le_of_lt_succ (hnests k hk)) _
  obtain ⟨node, stop, hstop, heval⟩ := evaluate_evalOf ctx text column (n + 1) s
  rw [heval]
  change IsQuotation _ _ (EStateM.bind (evaluateText ctx (n + 1) text column) _ s)
  unfold EStateM.bind
  rw [evaluateText_succ, hroom]
  cases evaluateWhole ctx (n + 1) (.ofText text) s with
  | ok e t =>
    refine ⟨fun e' t' h => ?_, nofun⟩
    cases h
    exact ⟨_, rfl, rfl, rfl, hstop⟩
  | error problem t =>
    refine ⟨nofun, fun problem' t' h => ?_⟩
    cases h
    rfl

/-- An expression without brackets has no `EVAL`. -/
theorem Nests.eq_zero {n k : Nat} {c : Cursor} {s : State} (h : Nests ctx n c s k)
    (hflat : ∀ column, .closing column ∉ (Token.scan c.skipBlanks).1) : k = 0 := by
  cases h with
  | here => rfl
  | inside hopens _ =>
    obtain ⟨before, closing, after, _, _, _, _, hscan, -⟩ := hopens.reached
    exact absurd (hscan ▸ List.mem_append_right _ List.mem_cons_self) (hflat closing)

/-- An `EVAL` of a string that holds a string, quotes and all. -/
def nestedSample : String := "EVAL(\"\"\"so\"\"\")"

/-- The sample nests one text. -/
theorem nests_nestedSample {s : State} {k : Nat} (h : Nests ctx 2 (.ofText nestedSample) s k) : k < 2 := by
  cases h with
  | here => decide
  | inside hopens hinner =>
    obtain ⟨before, closing, after, st, pending, node, operands, hscan, hbefore, hcollapse⟩ := hopens.reached
    have htokens : (Token.scan (Cursor.ofText nestedSample).skipBlanks).1 =
        [.call .eval 0, .atom (.literal (.str "\"so\"") "\"\"\"so\"\"\"") 5, .closing 13] := rfl
    rw [htokens] at hscan
    obtain ⟨rfl, rfl, rfl⟩ : before = [.call .eval 0, .atom (.literal (.str "\"so\"") "\"\"\"so\"\"\"") 5] ∧
        closing = 13 ∧ after = [] := by
      simpa [List.cons_eq_append_iff] using hscan
    cases hbefore
    cases hcollapse
    have hflat := hinner.eq_zero fun column hmem => by
      have htokens : (Token.scan (Cursor.ofText "\"so\"").skipBlanks).1 =
          [.atom (.literal (.str "so") "\"so\"") 0] := rfl
      rw [htokens] at hmem
      cases List.mem_singleton.mp hmem
    omega

theorem isQuotation_evalOf_nestedSample :
    ∃ e t, evaluate default 2 ⟨0, evalOf nestedSample⟩ default = .ok e t ∧ e.value = .str "so" ∧ e.known = true := by
  have hquotation := isQuotation_evalOf default nestedSample 0 1 default fun _ h => nests_nestedSample h
  have hwhole : readingOf? (evaluateWhole default 2 (.ofText nestedSample) default) = some (.str "so", true) := by
    decide +kernel
  obtain ⟨node, stop, t, hrun⟩ := exists_of_readingOf? hwhole
  obtain ⟨e, hrun', hvalue, hknown, -⟩ := hquotation.value _ t hrun
  exact ⟨e, t, hrun', hvalue, hknown⟩

end Expr
end Asm6502
