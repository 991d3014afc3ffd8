/-
# The parts of a double

A double is not a number, infinite, or a whole mantissa times a power of two.
Rounding to a whole number and the conversion to machine integers are exact
arithmetic on those parts.

Key definitions: `Number.parts`, `Number.truncate`, `Number.floor`,
`Number.isWhole`, `Number.toInteger`, `Number.toWord`.
-/

namespace Asm6502.Number

/-- What the bits of a double stand for. -/
inductive Parts
  | nan
  | infinite (negative : Bool)
  /-- The value `mantissa * 2 ^ exponent`, or its negation. -/
  | finite (negative : Bool) (mantissa : Nat) (exponent : Int)
deriving DecidableEq, Repr

/-- Takes a double apart. -/
def parts (x : Float) : Parts :=
  let bits := x.toBits.toNat
  let negative := bits / 0x8000000000000000 == 1
  let exponent : Nat := bits / 0x10000000000000 % 0x800
  let fraction : Nat := bits % 0x10000000000000
  if exponent = 2047 then
    if fraction = 0 then .infinite negative else .nan
  else if exponent = 0 then .finite negative fraction (-1074)
  else .finite negative (0x10000000000000 + fraction) ((exponent : Int) - 1075)

/-- The whole part of `mantissa * 2 ^ exponent`. -/
def wholePart (mantissa : Nat) : Int → Nat
  | .ofNat e => mantissa * Nat.pow 2 e
  | .negSucc e => mantissa / Nat.pow 2 (e + 1)

/-- Whether `mantissa * 2 ^ exponent` is a whole number. -/
def partsWhole (mantissa : Nat) : Int → Bool
  | .ofNat _ => true
  | .negSucc e => mantissa % Nat.pow 2 (e + 1) == 0

/-- A whole number as a double, with the sign given apart so that zero can
carry one. -/
def signed (negative : Bool) (n : Nat) : Float :=
  if negative then -(Float.ofNat n) else Float.ofNat n

/-- Whether a double is a whole number. -/
def isWhole (x : Float) : Bool :=
  match parts x with
  | .finite _ m e => partsWhole m e
  | _ => false

/-- Rounds toward zero and keeps the sign. -/
def truncate (x : Float) : Float :=
  match parts x with
  | .finite negative m e => if 0 ≤ e then x else signed negative (wholePart m e)
  | _ => x

/-- Rounds down. -/
def floor (x : Float) : Float :=
  match parts x with
  | .finite negative m e =>
    if 0 ≤ e then x
    else if negative && !partsWhole m e then signed true (wholePart m e + 1)
    else signed negative (wholePart m e)
  | _ => x

/-- The nearest of `low` and `high` if `n` lies outside them, else `n`. -/
def clamp (low high n : Int) : Int := max low (min high n)

/-- Rounds toward zero into 64 bits; what does not fit becomes the nearest
bound, and what is not a number becomes zero. -/
def toInteger (x : Float) : Int :=
  match parts x with
  | .nan => 0
  | .infinite negative => if negative then -0x8000000000000000 else 0x7FFFFFFFFFFFFFFF
  | .finite negative m e =>
    clamp (-0x8000000000000000) 0x7FFFFFFFFFFFFFFF
      (if negative then -(wholePart m e : Int) else wholePart m e)

/-- Rounds toward zero and wraps into 32 bits with a sign, so that the largest
unsigned word is -1. -/
def toWord (x : Float) : Int := (toInteger x).bmod 0x100000000

end Asm6502.Number
