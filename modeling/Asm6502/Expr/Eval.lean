/-
# Evaluating expressions

The tokens of an expression are taken one by one with two stacks, one of
operands and one of operators and brackets that still wait. An operator waits
until one that does not bind tighter follows it, and a bracket until it is
closed. What is left waits for the end of the expression.

A name that is not defined is tolerated in the first pass: the program counter
stands in for it and the value is not known. `EVAL` evaluates a text in the
same scopes; it can be nested only as deep as an allowance says.

Evaluation changes nothing but the generator and, in the second pass, the
places where symbols are used. The values that it finds are noted.

Key definitions: `Expr.Context`, `Expr.State`, `Stacks`, `Stacks.take`,
`Stacks.result`, `Expr.evaluate`, `Expr.Evaluated`.
-/
import Asm6502.Expr.Token
import Asm6502.History
import Asm6502.Node
import Asm6502.Pass
import Asm6502.Scope

namespace Asm6502

/-- An operand with its tree. -/
structure Operand where
  value : Value
  node : Node
deriving Repr, Inhabited

/-- An operator or a bracket that waits. -/
inductive Pending
  | bracket (column : Nat)
  /-- A call and the number of its arguments read so far. -/
  | call (f : Function) (arguments : Nat) (column : Nat)
  | unary (op : UnaryOp) (column : Nat)
  | binary (op : BinaryOp) (spelling : String) (column : Nat)
deriving Repr, Inhabited

namespace Pending

/-- Where it was written. -/
def column : Pending → Nat
  | bracket column | call _ _ column | unary _ column | binary _ _ column => column

/-- How tightly an operator binds, none for a bracket. -/
def precedence? : Pending → Option Nat
  | bracket _ | call _ _ _ => none
  | unary op _ => some op.precedence
  | binary op _ _ => some op.precedence

/-- Whether it is an operator. -/
def isOperator (p : Pending) : Bool := p.precedence?.isSome

/-- Whether it is an operator that binds at least as tightly as `level`. -/
def binds (level : Nat) (p : Pending) : Bool := p.precedence?.any (level ≤ ·)

/-- Applies an operator to the operands on top of the stack. -/
def reduce (p : Pending) (operands : List Operand) : Except Problem (List Operand) :=
  match p, operands with
  | unary op column, a :: rest => do
    let value ← Fault.located column (op.apply a.value)
    return ⟨value, .mk .function (String.singleton op.sign) column [a.node]⟩ :: rest
  | binary op spelling column, b :: a :: rest => do
    let value ← Fault.located column (op.apply a.value b.value)
    return ⟨value, .mk .binaryOp spelling column [a.node, b.node]⟩ :: rest
  | p, _ => throw ⟨.missingValue, p.column⟩

end Pending

/-- The operands and what waits, each with its latest first. -/
structure Stacks where
  operands : List Operand
  pending : List Pending
  /-- Whether a value is expected next. -/
  expectsValue : Bool
  /-- Whether every name so far was defined. -/
  known : Bool
deriving Repr, Inhabited

/-- Applies the operators on top of what waits as long as `ready` says so. -/
def collapse (ready : Pending → Bool) :
    List Pending → List Operand → Except Problem (List Pending × List Operand)
  | [], operands => .ok ([], operands)
  | p :: pending, operands =>
    if ready p then do
      let operands ← p.reduce operands
      collapse ready pending operands
    else .ok (p :: pending, operands)

namespace Expr

/-- What an evaluation looks at. -/
structure Context where
  pass : Pass
  pc : Nat
  /-- The time in seconds since the start of 1970. -/
  clock : Int
  /-- The open scopes. -/
  frames : List Frame
  file : Nat
  line : Nat
deriving Inhabited

/-- What an evaluation changes. -/
structure State where
  symbols : SymbolTable
  random : Random
  /-- What was noted, latest first. -/
  history : List Note
deriving Inhabited

end Expr

/-- An evaluation, which may stop at a problem. -/
abbrev Eval := EStateM Problem Expr.State

namespace Eval

/-- Carries on with a result or stops. -/
def ofExcept : Except Problem α → Eval α
  | .ok a => pure a
  | .error problem => throw problem

/-- Moves any problem to a column. -/
def relocate (column : Nat) (e : Eval α) : Eval α := fun s =>
  match e s with
  | .ok a s => .ok a s
  | .error problem s => .error ⟨problem.fault, column⟩ s

end Eval

/-- How the text of an `EVAL` is evaluated, for one at a column: its value and
whether it is known. -/
abbrev TextEvaluator := String → Nat → Eval (Value × Bool)

namespace Expr

/-- The value of a symbol at a column and whether it is known. -/
def symbolValue (ctx : Context) (name : String) (column : Nat) : Eval (Value × Bool) := fun s =>
  if name = "P%" then .ok (.ofNat ctx.pc, true) s
  else
    let (value, symbols) :=
      lookUp ctx.pass s.symbols ctx.frames name ⟨ctx.file, ctx.line, column⟩
    match visibleName? s.symbols name ctx.frames, value with
    | some full, some value =>
      .ok (value, true) { s with symbols, history := .found ctx.pass full value :: s.history }
    | _, _ =>
      if ctx.pass = .first then .ok (.ofNat ctx.pc, false) s
      else .error ⟨.symbolNotDefined, column⟩ s

/-- An atom as an operand, and whether its value is known. -/
def atomOperand (ctx : Context) (column : Nat) : Atom → Eval (Operand × Bool)
  | .literal value text => return (⟨value, .leaf .value text column⟩, true)
  | .counter => return (⟨.ofNat ctx.pc, .leaf .value "*" column⟩, true)
  | .now =>
    let value := .str (Calendar.format ctx.clock Calendar.defaultFormat)
    return (⟨value, .leaf .value Token.timeWord column⟩, true)
  | .name name => do
    let (value, known) ← symbolValue ctx name column
    return (⟨value, .leaf .symbol name column⟩, known)

/-- The value of a call and whether it is known. -/
def callValue (inner : TextEvaluator) (ctx : Context) (f : Function) (arguments : List Value)
    (column : Nat) : Eval (Value × Bool) :=
  if f = .eval then
    match arguments with
    | .str text :: _ => inner text column
    | _ => throw ⟨.typeMismatch, column⟩
  else fun s =>
    match f.apply ctx.clock arguments s.random with
    | .ok (value, random) => .ok (value, true) { s with random }
    | .error fault => .error ⟨fault, column⟩ s

end Expr

namespace Stacks

/-- The stacks before the first token. -/
def start : Stacks := ⟨[], [], true, true⟩

/-- Closes the bracket on top of what waits, with everything inside it applied. -/
def close (inner : TextEvaluator) (ctx : Expr.Context) (known : Bool) :
    List Pending → List Operand → Eval Stacks
  | .call f arguments column :: pending, operands => do
    if arguments + 1 ≠ f.arity then throw ⟨.parameterCount, column⟩
    if operands.length < f.arity then throw ⟨.missingValue, column⟩
    let taken := (operands.take f.arity).reverse
    let (value, sure) ← Expr.callValue inner ctx f (taken.map Operand.value) column
    let node := .mk .function f.name column (taken.map Operand.node)
    return ⟨⟨value, node⟩ :: operands.drop f.arity, pending, false, known && sure⟩
  | _ :: pending, operands => return ⟨operands, pending, false, known⟩
  | [], operands => return ⟨operands, [], false, known⟩

/-- Goes on to the next argument of the call on top of what waits. -/
def nextArgument (known : Bool) (column : Nat) : List Pending → List Operand → Eval Stacks
  | .call f arguments start :: pending, operands =>
    return ⟨operands, .call f (arguments + 1) start :: pending, true, known⟩
  | _, _ => throw ⟨.unexpectedComma, column⟩

/-- Takes the next token. -/
def take (inner : TextEvaluator) (ctx : Expr.Context) (s : Stacks) : Token → Eval Stacks
  | .opening column => return { s with pending := .bracket column :: s.pending }
  | .unary op column => return { s with pending := .unary op column :: s.pending }
  | .call f column => return { s with pending := .call f 0 column :: s.pending }
  | .atom a column => do
    let (operand, sure) ← Expr.atomOperand ctx column a
    return ⟨operand :: s.operands, s.pending, false, s.known && sure⟩
  | .closing _ => do
    let (pending, operands) ← Eval.ofExcept (collapse Pending.isOperator s.pending s.operands)
    close inner ctx s.known pending operands
  | .comma column => do
    let (pending, operands) ← Eval.ofExcept (collapse Pending.isOperator s.pending s.operands)
    nextArgument s.known column pending operands
  | .binary op spelling column => do
    let (pending, operands) ←
      Eval.ofExcept (collapse (Pending.binds op.precedence) s.pending s.operands)
    return ⟨operands, .binary op spelling column :: pending, true, s.known⟩
  | .bad problem => throw problem

/-- The operand that is left when the expression ends at a column. -/
def result (s : Stacks) (column : Nat) : Except Problem Operand := do
  if s.expectsValue then
    if s.operands.isEmpty && s.pending.isEmpty then throw ⟨.emptyExpression, column⟩
    else throw ⟨.missingValue, column⟩
  match ← collapse Pending.isOperator s.pending s.operands with
  | (p :: _, _) => throw ⟨.mismatchedParentheses, p.column⟩
  | ([], [operand]) => return operand
  | ([], _) => throw ⟨.invalidCharacter, column⟩

end Stacks

namespace Expr

/-- An evaluated expression. -/
structure Evaluated where
  value : Value
  node : Node
  /-- Whether every name was defined. -/
  known : Bool
  /-- The place where the expression ends. -/
  stop : Cursor
deriving Repr, Inhabited

/-- The spelling of an expression: the characters without the blanks that
follow. -/
def spelling (cs : List Char) : String := String.ofList (cs.reverse.dropWhile isBlank).reverse

/-- Evaluates the expression at a cursor, where `inner` evaluates the text of an
`EVAL`. -/
def evaluateWith (inner : TextEvaluator) (ctx : Context) (c : Cursor) : Eval Evaluated := do
  let start := c.skipBlanks
  let (tokens, stop) := Token.scan start
  let state ← tokens.foldlM (Stacks.take inner ctx) Stacks.start
  let operand ← Eval.ofExcept (state.result stop.column)
  let node := .mk .expression (spelling (start.upTo stop)) start.column [operand.node]
  return ⟨operand.value, node, state.known, stop⟩

/-- What is wrong where a statement should end, if anything is. -/
def endProblem? (c : Cursor) : Option Problem :=
  if c.atStatementEnd then none
  else
    let c := c.skipBlanks
    some ⟨if c.peek == some ',' then .unexpectedComma else .invalidCharacter, c.column⟩

/-- Evaluates the text of an `EVAL` as a whole expression, nested at most as
deep as the allowance. -/
def evaluateText (ctx : Context) : Nat → TextEvaluator
  | 0 => fun _ column => throw ⟨.tooManyEvals, column⟩
  | allowance + 1 => fun text column => Eval.relocate column do
    let e ← evaluateWith (evaluateText ctx allowance) ctx (Cursor.ofText text)
    match endProblem? e.stop with
    | some problem => throw problem
    | none => return (e.value, e.known)

/-- Evaluates the expression at a cursor, where `EVAL` may be nested as deep as
the allowance. -/
def evaluate (ctx : Context) (allowance : Nat) (c : Cursor) : Eval Evaluated :=
  evaluateWith (evaluateText ctx allowance) ctx c

end Expr

end Asm6502
