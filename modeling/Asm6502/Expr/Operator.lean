/-
# Operators

Prefix operators bind tighter than any binary one; binary operators bind to
the left. Truth is -1 and falsehood 0. Bitwise operators work on 32-bit
integers, division rounds down, and a result that is not a number is refused.

Key definitions: `UnaryOp`, `UnaryOp.apply`, `BinaryOp`, `BinaryOp.precedence`,
`BinaryOp.apply`, `BinaryOp.find?`.
-/
import Asm6502.Text.Cursor
import Asm6502.Value

namespace Asm6502

/-- An operator before its operand. -/
inductive UnaryOp
  | negate
  | plus
  | lowByte
  | highByte
deriving DecidableEq, Repr, Inhabited

namespace UnaryOp

/-- The sign that is written for the operator. -/
def sign : UnaryOp → Char
  | negate => '-'
  | plus => '+'
  | lowByte => '<'
  | highByte => '>'

/-- The operator that a sign stands for. -/
def ofSign? : Char → Option UnaryOp
  | '-' => some negate
  | '+' => some plus
  | '<' => some lowByte
  | '>' => some highByte
  | _ => none

/-- How tightly the operator binds. -/
def precedence : UnaryOp → Nat
  | negate | plus => 8
  | lowByte | highByte => 10

/-- The value of the operator, which wants a number. -/
def apply (op : UnaryOp) (v : Value) : Except Fault Value := do
  let n ← v.number
  match op with
  | negate => return .num (-n)
  | plus => return .num n
  | lowByte => return .ofInt (Number.toWord n % 256)
  | highByte => return .ofInt (Number.toWord n / 256 % 256)

end UnaryOp

/-- An operator between two operands. -/
inductive BinaryOp
  | power
  | times
  | divide
  | modulo
  | integerDivide
  | shiftLeft
  | shiftRight
  | add
  | subtract
  | equal
  | notEqual
  | lessOrEqual
  | greaterOrEqual
  | less
  | greater
  | and
  | or
  | exclusiveOr
deriving DecidableEq, Repr, Inhabited

namespace BinaryOp

/-- How tightly the operator binds. -/
def precedence : BinaryOp → Nat
  | power => 7
  | times | divide | modulo | integerDivide | shiftLeft | shiftRight => 6
  | add | subtract => 5
  | equal | notEqual | lessOrEqual | greaterOrEqual | less | greater => 4
  | and => 3
  | or | exclusiveOr => 2

/-- The spellings of the operators, longer ones before their beginnings. -/
def spellings : List (String × BinaryOp) :=
  [("<<", shiftLeft), (">>", shiftRight), ("<=", lessOrEqual), (">=", greaterOrEqual),
   ("<>", notEqual), ("!=", notEqual), ("==", equal), ("=", equal), ("<", less), (">", greater),
   ("^", power), ("*", times), ("/", divide), ("%", modulo), ("+", add), ("-", subtract),
   ("DIV", integerDivide), ("MOD", modulo), ("AND", and), ("OR", or), ("EOR", exclusiveOr)]

/-- Whether `cs` starts with a spelling. After one made of letters, no letter and
no underscore may follow. -/
def spelledAt (spelling : String) (cs : List Char) : Bool :=
  let word := spelling.toList
  startsWith word cs &&
    !(word.head?.any Char.isAlpha && (cs.drop word.length).head?.any fun c => c.isAlpha || c == '_')

/-- The operator at the start of `cs`, with its spelling. -/
def find? (cs : List Char) : Option (String × BinaryOp) :=
  spellings.find? fun (spelling, _) => spelledAt spelling cs

/-- Truth is -1 and falsehood 0. -/
def truth (b : Bool) : Float := if b then -1 else 0

/-- Shifts a 32-bit integer. A negative amount shifts the other way, and more
than 31 places leave nothing. -/
def shift (value amount : Int) (left : Bool) : Int :=
  let left := if amount < 0 then !left else left
  let places := amount.natAbs
  if places > 31 then 0
  else if left then (value * Nat.pow 2 places).bmod 0x100000000
  else value / Nat.pow 2 places

/-- Combines the bits of two 32-bit integers. -/
def bitwise (f : BitVec 32 → BitVec 32 → BitVec 32) (a b : Int) : Int :=
  (f (BitVec.ofInt 32 a) (BitVec.ofInt 32 b)).toInt

/-- Whether a comparison holds of an order, none if the operator compares
nothing. -/
def holds? (op : BinaryOp) (o : Ordering) : Option Bool :=
  match op with
  | equal => some (o == .eq)
  | notEqual => some (o != .eq)
  | lessOrEqual => some (o != .gt)
  | greaterOrEqual => some (o != .lt)
  | less => some (o == .lt)
  | greater => some (o == .gt)
  | _ => none

/-- The order of two numbers, none if one of them is not a number. -/
def order? (a b : Float) : Option Ordering :=
  if a < b then some .lt else if a > b then some .gt else if a == b then some .eq else none

/-- The number that an operator makes of two numbers, before it is checked. -/
def raw (op : BinaryOp) (a b : Float) : Except Fault Float :=
  match op with
  | power => .ok (a.pow b)
  | times => .ok (a * b)
  | divide => if b == 0 then .error .divisionByZero else .ok (Number.floor (a / b))
  | integerDivide =>
    let divisor := Number.truncate b
    if divisor == 0 then .error .divisionByZero else .ok (Number.truncate a / divisor)
  | modulo =>
    let divisor := Number.toWord b
    if divisor = 0 then .error .divisionByZero
    else .ok (Float.ofInt ((Number.toWord a).tmod divisor))
  | shiftLeft => .ok (Float.ofInt (shift (Number.toWord a) (Number.toWord b) true))
  | shiftRight => .ok (Float.ofInt (shift (Number.toWord a) (Number.toWord b) false))
  | add => .ok (a + b)
  | subtract => .ok (a - b)
  | and => .ok (Float.ofInt (bitwise (· &&& ·) (Number.toWord a) (Number.toWord b)))
  | or => .ok (Float.ofInt (bitwise (· ||| ·) (Number.toWord a) (Number.toWord b)))
  | exclusiveOr => .ok (Float.ofInt (bitwise (· ^^^ ·) (Number.toWord a) (Number.toWord b)))
  | equal | notEqual | lessOrEqual | greaterOrEqual | less | greater =>
    match (order? a b).bind op.holds? with
    | some b => .ok (truth b)
    | none => .error .illegalOperation

/-- The number that an operator makes of two numbers. -/
def numeric (op : BinaryOp) (a b : Float) : Except Fault Float := do
  let n ← op.raw a b
  if n.isNaN then throw .illegalOperation else return n

/-- The value that an operator makes of two texts: they can be joined and
compared. -/
def textual (op : BinaryOp) (a b : String) : Except Fault Value :=
  match op, op.holds? (compare a b) with
  | add, _ => .ok (.str (a ++ b))
  | _, some b => .ok (.num (truth b))
  | _, none => .error .typeMismatch

/-- The value of an operator. Its operands must be of one kind. -/
def apply (op : BinaryOp) : Value → Value → Except Fault Value
  | .num a, .num b => (op.numeric a b).map Value.num
  | .str a, .str b => op.textual a b
  | _, _ => .error .typeMismatch

end BinaryOp

end Asm6502
