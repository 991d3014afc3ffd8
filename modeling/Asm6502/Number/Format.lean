/-
# The text of a number

A whole number below `10 ^ 15` is written as an integer, so zero has no sign.
Every other number is written with its shortest digits and never with an
exponent.

Key definitions: `Number.format`, `Number.hexadecimal`.
-/
import Asm6502.Number.Parts
import Asm6502.Number.Shortest

namespace Asm6502.Number

/-- The decimal digits of a natural number. -/
def decimal (n : Nat) : List Char := Nat.toDigits 10 n

/-- `n` in upper-case hexadecimal, without a marker. -/
def hexadecimal (n : Nat) : String := String.ofList ((Nat.toDigits 16 n).map Char.toUpper)

/-- `digits * 10 ^ k` in positional notation. -/
def positional (digits : Nat) (k : Int) : List Char :=
  if 0 ≤ k then decimal digits ++ List.replicate k.toNat '0'
  else
    let places := (-k).toNat
    let cs := decimal digits
    let cs := List.replicate (places + 1 - cs.length) '0' ++ cs
    cs.take (cs.length - places) ++ '.' :: cs.drop (cs.length - places)

/-- The least magnitude that is no longer written as an integer. -/
def integerLimit : Nat := 1000000000000000

/-- The text of a number as it is printed. -/
def format (x : Float) : String :=
  match parts x with
  | .nan => "NaN"
  | .infinite negative => if negative then "-inf" else "inf"
  | .finite negative m e =>
    if partsWhole m e && wholePart m e < integerLimit then
      let n := wholePart m e
      String.ofList (if negative && n != 0 then '-' :: decimal n else decimal n)
    else
      let (d, k) := Shortest.digits m e
      String.ofList (if negative then '-' :: positional d k else positional d k)

end Asm6502.Number
