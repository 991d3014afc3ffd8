/-
# Faults that blame no name

Only the lookup of a name says that a symbol is not defined. Literals, operators,
functions and the two stacks have faults of their own, and none of them is that
one: an evaluation that stops because a symbol is not defined has looked that
symbol up.

Key definitions: `Avoids`, `Fault.BlamesName`, `Problem.BlamesName`.
Key theorems: `avoids_functionApply`, `avoids_binaryApply`, `avoids_collapse`,
`avoids_result`, `not_blamesName_of_mem_scanFrom`.
-/
import Mathlib.Tactic.SplitIfs
import Asm6502.Expr.Eval

namespace Asm6502

/-- Whether a result is not one of the bad errors. -/
def Avoids {ε α : Type} (bad : ε → Prop) (x : Except ε α) : Prop := ∀ e, x = .error e → ¬ bad e

/-- Whether the fault is that a symbol is not defined. -/
def Fault.BlamesName (fault : Fault) : Prop := fault = .symbolNotDefined

/-- Whether the problem is that a symbol is not defined. -/
def Problem.BlamesName (problem : Problem) : Prop := problem.fault = .symbolNotDefined

section
variable {ε α β : Type} {bad : ε → Prop}

theorem avoids_ok (a : α) : Avoids bad (.ok a) := nofun

theorem avoids_error {e : ε} (h : ¬ bad e) : Avoids bad (.error e : Except ε α) := by
  intro e' he
  rwa [← Except.error.inj he]

theorem avoids_bind {x : Except ε α} {f : α → Except ε β} (hx : Avoids bad x)
    (hf : ∀ a, Avoids bad (f a)) : Avoids bad (x >>= f) := by
  cases x with
  | ok a => exact hf a
  | error e => exact avoids_error (hx e rfl)

theorem avoids_map {x : Except ε α} {f : α → β} (hx : Avoids bad x) : Avoids bad (x.map f) := by
  cases x with
  | ok a => exact avoids_ok _
  | error e => exact avoids_error (hx e rfl)

theorem avoids_ite {p : Prop} [Decidable p] {x y : Except ε α} (hx : Avoids bad x) (hy : Avoids bad y) :
    Avoids bad (if p then x else y) := by
  split
  · exact hx
  · exact hy

/-- A check that refuses or gives a value. -/
theorem avoids_check {p : Prop} [Decidable p] {e : ε} (h : ¬ bad e) (a : α) :
    Avoids bad (if p then .error e else .ok a) := avoids_ite (avoids_error h) (avoids_ok a)

theorem avoids_located {x : Except Fault α} (hx : Avoids Fault.BlamesName x) (column : Nat) :
    Avoids Problem.BlamesName (Fault.located column x) := by
  cases x with
  | ok a => exact avoids_ok a
  | error fault => exact avoids_error (hx fault rfl)

end

/-! ### Values, functions and operators -/

theorem avoids_number (v : Value) : Avoids Fault.BlamesName v.number := by
  cases v with
  | num n => exact avoids_ok n
  | str s => exact avoids_error nofun

theorem avoids_text (v : Value) : Avoids Fault.BlamesName v.text := by
  cases v with
  | num n => exact avoids_error nofun
  | str s => exact avoids_ok s

theorem avoids_integer (v : Value) : Avoids Fault.BlamesName v.integer := avoids_map (avoids_number v)

theorem avoids_middleText (text : String) (start count : Int) :
    Avoids Fault.BlamesName (Function.middleText text start count) := avoids_check nofun _

theorem avoids_pureApply (f : Function) (a b c : Value) : Avoids Fault.BlamesName (f.pureApply a b c) := by
  have hfinite (g : Float → Float) : Avoids Fault.BlamesName (a.number >>= fun n => Function.finite (g n)) :=
    avoids_bind (avoids_number a) fun n => avoids_check nofun _
  have hlogarithm (log : Float → Float) : Avoids Fault.BlamesName (Function.logarithm log a) :=
    avoids_bind (avoids_number a) fun n => avoids_check nofun _
  cases f with
  | sine | cosine | tangent | arcSine | arcCosine | arcTangent | squareRoot | exponential => exact hfinite _
  | log10 | ln => exact hlogarithm _
  | radians | degrees | whole | absolute | signum | numberText =>
    exact avoids_bind (avoids_number a) fun _ => avoids_ok _
  | high | low | complement | hexText => exact avoids_bind (avoids_integer a) fun _ => avoids_ok _
  | numberValue | length | upper | lower => exact avoids_bind (avoids_text a) fun _ => avoids_ok _
  | character => exact avoids_bind (avoids_integer a) fun n => avoids_check nofun _
  | code =>
    refine avoids_bind (avoids_text a) fun text => ?_
    split
    · exact avoids_error nofun
    · exact avoids_ok _
  | middle =>
    exact avoids_bind (avoids_text a) fun _ => avoids_bind (avoids_integer b) fun _ =>
      avoids_bind (avoids_integer c) fun _ => avoids_middleText _ _ _
  | left | right =>
    exact avoids_bind (avoids_text a) fun _ => avoids_bind (avoids_integer b) fun _ =>
      avoids_ite (avoids_error nofun) (avoids_middleText _ _ _)
  | repeated =>
    refine avoids_bind (avoids_integer a) fun _ => avoids_bind (avoids_text b) fun _ => ?_
    exact avoids_ite (avoids_error nofun) (avoids_ite (avoids_error nofun) (avoids_ite (avoids_ok _) (avoids_ok _)))
  | random | time | eval => exact avoids_error nofun

theorem avoids_functionApply (f : Function) (clock : Int) (arguments : List Value) (r : Random) :
    Avoids Fault.BlamesName (f.apply clock arguments r) := by
  unfold Function.apply
  dsimp only
  split
  · exact avoids_bind (avoids_number _) fun n => avoids_check nofun _
  · exact avoids_bind (avoids_text _) fun _ => avoids_ok _
  · exact avoids_map (avoids_pureApply _ _ _ _)

theorem avoids_unaryApply (op : UnaryOp) (v : Value) : Avoids Fault.BlamesName (op.apply v) := by
  refine avoids_bind (avoids_number v) fun n => ?_
  cases op with
  | negate | plus | lowByte | highByte => exact avoids_ok _

theorem avoids_raw (op : BinaryOp) (a b : Float) : Avoids Fault.BlamesName (op.raw a b) := by
  cases op with
  | power | times | shiftLeft | shiftRight | add | subtract | and | or | exclusiveOr => exact avoids_ok _
  | divide | integerDivide | modulo => exact avoids_check nofun _
  | equal | notEqual | lessOrEqual | greaterOrEqual | less | greater =>
    unfold BinaryOp.raw
    dsimp only
    split
    · exact avoids_ok _
    · exact avoids_error nofun

theorem avoids_binaryApply (op : BinaryOp) (v w : Value) : Avoids Fault.BlamesName (op.apply v w) := by
  unfold BinaryOp.apply
  split
  · exact avoids_map (avoids_bind (avoids_raw _ _ _) fun n => avoids_check nofun _)
  · unfold BinaryOp.textual
    split
    · exact avoids_ok _
    · exact avoids_ok _
    · exact avoids_error nofun
  · exact avoids_error nofun

/-! ### The stacks -/

theorem avoids_reduce (p : Pending) (operands : List Operand) :
    Avoids Problem.BlamesName (p.reduce operands) := by
  unfold Pending.reduce
  split
  · exact avoids_bind (avoids_located (avoids_unaryApply _ _) _) fun _ => avoids_ok _
  · exact avoids_bind (avoids_located (avoids_binaryApply _ _ _) _) fun _ => avoids_ok _
  · exact avoids_error nofun

theorem avoids_collapse (ready : Pending → Bool) : ∀ (pending : List Pending) (operands : List Operand),
    Avoids Problem.BlamesName (collapse ready pending operands)
  | [], operands => avoids_ok _
  | p :: pending, operands => by
    unfold collapse
    exact avoids_ite (avoids_bind (avoids_reduce p operands) fun operands => avoids_collapse ready pending operands)
      (avoids_ok _)

theorem avoids_result (st : Stacks) (column : Nat) : Avoids Problem.BlamesName (st.result column) := by
  unfold Stacks.result
  split
  · split
    · exact avoids_error nofun
    · exact avoids_error nofun
  · refine avoids_bind (avoids_collapse _ _ _) fun left => ?_
    split
    · exact avoids_error nofun
    · exact avoids_ok _
    · exact avoids_error nofun

/-! ### Tokens -/

theorem avoids_radix (base limit : Nat) (bad : Fault) (hbad : ¬ bad.BlamesName) (cs : List Char) :
    Avoids Fault.BlamesName (Literal.radix base limit bad cs) :=
  avoids_ite (avoids_error hbad) (avoids_check nofun _)

theorem avoids_decimal (cs : List Char) : Avoids Fault.BlamesName (Literal.decimal cs) := by
  unfold Literal.decimal
  dsimp only
  split
  · exact avoids_error nofun
  · exact avoids_check nofun _

theorem avoids_character (cs : List Char) : Avoids Fault.BlamesName (Literal.character cs) := by
  unfold Literal.character
  split
  · exact avoids_ite (avoids_ok _) (avoids_error nofun)
  · exact avoids_error nofun

theorem avoids_string (cs : List Char) : Avoids Fault.BlamesName (Literal.string cs) := by
  unfold Literal.string
  split
  · exact avoids_error nofun
  · exact avoids_ok _

namespace Token

/-- Whether the token is a problem that blames a name. -/
def BlamesName : Token → Prop
  | .bad problem => problem.BlamesName
  | _ => False

theorem not_blamesName_operand (x : Char) (c : Cursor) : ¬ (operand x c).1.BlamesName := by
  have hliteral (marks : Nat) {result : Except Fault (Value × Nat)} (h : Avoids Fault.BlamesName result) :
      ¬ (ofLiteral c marks result).1.BlamesName := by
    unfold ofLiteral
    split
    · exact h _ rfl
    · exact not_false
  unfold operand
  dsimp only
  split_ifs
  · exact hliteral _ (avoids_decimal _)
  · exact hliteral _ (avoids_radix 16 8 .badHex nofun _)
  · exact hliteral _ (avoids_radix 2 32 .badBinary nofun _)
  · exact not_false
  · exact hliteral _ (avoids_character _)
  · exact hliteral _ (avoids_string _)
  · unfold ofName
    split_ifs
    · exact not_false
    · exact not_false
  · exact nofun

theorem not_blamesName_of_next? {value : Bool} {depth : Nat} {c : Cursor} {token : Token} {n : Nat}
    (h : next? value depth c = some (token, n)) : ¬ token.BlamesName := by
  unfold next? at h
  split_ifs at h with hvalue
  · unfold valueToken? at h
    split at h
    · cases h
    · rename_i x _ _
      split at h
      · cases h
        exact not_false
      · split at h
        · cases h
          exact not_false
        · cases h
          exact not_false
        · split_ifs at h
          have hoperand := not_blamesName_operand x c
          rwa [Option.some.inj h] at hoperand
  · unfold operatorToken? at h
    split at h
    · cases h
    · split_ifs at h
      · cases h
        exact not_false
      · cases h
        exact not_false
      · obtain ⟨op, -, hop⟩ := Option.map_eq_some_iff.mp h
        cases hop
        exact not_false

theorem not_blamesName_of_mem_scanFrom : ∀ (steps : Nat) {value : Bool} {depth : Nat} {c : Cursor},
    ∀ token ∈ (scanFrom steps value depth c).1, ¬ token.BlamesName
  | 0, _, _, _, _, h => by cases h
  | steps + 1, value, depth, c, token, h => by
    unfold scanFrom at h
    dsimp only at h
    split at h
    · cases h
    · rename_i hnext
      obtain rfl := List.mem_singleton.mp h
      exact not_blamesName_of_next? hnext
    · rename_i hnext
      rcases List.mem_cons.mp h with rfl | h
      · exact not_blamesName_of_next? hnext
      · exact not_blamesName_of_mem_scanFrom steps token h

end Token

theorem not_blamesName_of_endProblem? {c : Cursor} {problem : Problem} (h : Expr.endProblem? c = some problem) :
    ¬ problem.BlamesName := by
  unfold Expr.endProblem? at h
  split_ifs at h
  obtain rfl := Option.some.inj h
  unfold Problem.BlamesName
  dsimp only
  split_ifs
  · exact nofun
  · exact nofun

end Asm6502
