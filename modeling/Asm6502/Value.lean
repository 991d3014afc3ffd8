/-
# Values

An expression has a number or a text as its value. Each operation that wants
one kind refuses the other with a type mismatch.

Key definitions: `Value`, `Value.number`, `Value.integer`, `Value.text`,
`Value.render`.
-/
import Asm6502.Fault
import Asm6502.Number.Format

namespace Asm6502

/-- The value of an expression. -/
inductive Value
  | num (n : Float)
  | str (s : String)
deriving DecidableEq, Repr, Inhabited

namespace Value

/-- Numbers compare as doubles do, so the two zeros are equal and what is not a
number differs from itself. -/
def same : Value → Value → Bool
  | .num a, .num b => a == b
  | .str a, .str b => a == b
  | _, _ => false

/-- The number that a value must be. -/
def number : Value → Except Fault Float
  | .num n => .ok n
  | .str _ => .error .typeMismatch

/-- The text that a value must be. -/
def text : Value → Except Fault String
  | .str s => .ok s
  | .num _ => .error .typeMismatch

/-- The number that a value must be, as a 32-bit integer. -/
def integer (v : Value) : Except Fault Int := v.number.map Number.toWord

/-- A natural number as a value. -/
def ofNat (n : Nat) : Value := .num (Float.ofNat n)

/-- An integer as a value. -/
def ofInt (n : Int) : Value := .num (Float.ofInt n)

/-- The text that a value is printed as. -/
def render : Value → String
  | .num n => Number.format n
  | .str s => s

end Value

end Asm6502
