/-
# The tokens of an expression

An expression ends before the first thing that cannot be part of it: where a
value is expected, a bracket or separator that closes something else; where an
operator is expected, anything that is none, or a comma or closing bracket for
which no bracket was opened. Its tokens depend on nothing but the text, so
they are found before anything is evaluated. A literal that cannot be read is
a token too, so that what comes before it is evaluated first.

Key definitions: `Atom`, `Token`, `Token.next?`, `Token.scan`.
-/
import Asm6502.Expr.Function
import Asm6502.Expr.Literal

namespace Asm6502

/-- An operand that stands for itself. -/
inductive Atom
  /-- A literal with its spelling. -/
  | literal (value : Value) (text : String)
  /-- The program counter, written `*`. -/
  | counter
  /-- The time in the default format. -/
  | now
  /-- A symbol. -/
  | name (name : String)
deriving Repr, Inhabited

/-- A part of an expression, at a byte column. -/
inductive Token
  | opening (column : Nat)
  | unary (op : UnaryOp) (column : Nat)
  | call (f : Function) (column : Nat)
  | atom (a : Atom) (column : Nat)
  | closing (column : Nat)
  | comma (column : Nat)
  | binary (op : BinaryOp) (spelling : String) (column : Nat)
  /-- Something that cannot be read. -/
  | bad (problem : Problem)
deriving Repr, Inhabited

namespace Token

/-- Whether a value is expected after the token. -/
def expectsValue : Token → Bool
  | atom _ _ | closing _ | bad _ => false
  | _ => true

/-- The number of open brackets after the token. -/
def depthAfter (depth : Nat) : Token → Nat
  | opening _ | call _ _ => depth + 1
  | closing _ => depth - 1
  | _ => depth

/-- A literal that starts at `c` with `marks` characters before what `result`
took. -/
def ofLiteral (c : Cursor) (marks : Nat) (result : Except Fault (Value × Nat)) : Token × Nat :=
  match result with
  | .error fault => (bad ⟨fault, c.column⟩, 0)
  | .ok (value, n) =>
    (atom (.literal value (String.ofList (c.rest.take (marks + n)))) c.column, marks + n)

/-- The word for the time in the default format. -/
def timeWord : String := "TIME$"

/-- The symbol that starts at `c`, or the time. -/
def ofName (c : Cursor) : Token × Nat :=
  if startsWith timeWord.toList c.rest then (atom .now c.column, timeWord.length)
  else
    let n := nameLength c.rest
    (atom (.name (String.ofList (c.rest.take n))) c.column, n)

/-- The operand that starts with the character `x` at `c`. -/
def operand (x : Char) (c : Cursor) : Token × Nat :=
  let cs := c.rest.tail
  if x.isDigit || x == '.' then ofLiteral c 0 (Literal.decimal c.rest)
  else if x == '&' || x == '$' then ofLiteral c 1 (Literal.radix 16 8 .badHex cs)
  else if x == '%' then ofLiteral c 1 (Literal.radix 2 32 .badBinary cs)
  else if x == '*' then (atom .counter c.column, 1)
  else if x == '\'' then ofLiteral c 1 (Literal.character cs)
  else if x == '"' then ofLiteral c 1 (Literal.string cs)
  else if isNameStart x then ofName c
  else (bad ⟨.invalidCharacter, c.column⟩, 0)

/-- The token at `c` where a value is expected, and the number of its
characters. -/
def valueToken? (c : Cursor) : Option (Token × Nat) :=
  match c.rest with
  | [] => none
  | x :: _ =>
    if x == '(' then some (opening c.column, 1)
    else
      match UnaryOp.ofSign? x, Function.find? c.rest with
      | some op, _ => some (unary op c.column, 1)
      | none, some f => some (call f c.column, f.name.length + 1)
      | none, none =>
        if x == ')' || x == ',' || isStatementEnd x then none else some (operand x c)

/-- The token at `c` where an operator is expected and `depth` brackets are
open, and the number of its characters. -/
def operatorToken? (depth : Nat) (c : Cursor) : Option (Token × Nat) :=
  match c.rest with
  | [] => none
  | x :: _ =>
    if x == ')' then (if depth = 0 then none else some (closing c.column, 1))
    else if x == ',' then (if depth = 0 then none else some (comma c.column, 1))
    else
      (BinaryOp.find? c.rest).map fun (spelling, op) =>
        (binary op spelling c.column, spelling.length)

/-- The next token and the number of its characters. -/
def next? (value : Bool) (depth : Nat) (c : Cursor) : Option (Token × Nat) :=
  if value then valueToken? c else operatorToken? depth c

/-- The tokens from `c` on and the place where they end, where `value` says
whether a value is expected. A token takes at least one character, so a number
of steps as large as the rest of the line reaches the end. -/
def scanFrom : Nat → Bool → Nat → Cursor → List Token × Cursor
  | 0, _, _, c => ([], c.skipBlanks)
  | steps + 1, value, depth, c =>
    let c := c.skipBlanks
    match next? value depth c with
    | none => ([], c)
    | some (bad problem, _) => ([bad problem], c)
    | some (token, n) =>
      let (tokens, stop) := scanFrom steps token.expectsValue (token.depthAfter depth) (c.skip n)
      (token :: tokens, stop)

/-- The tokens of the expression at `c` and the place where it ends. -/
def scan (c : Cursor) : List Token × Cursor := scanFrom c.rest.length true 0 c

end Token

end Asm6502
