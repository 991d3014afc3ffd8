/-
# The shortest digits of a double

Every double has a range of reals that round to it; the ends belong to the
range exactly when the mantissa is even. Among the decimals inside that range
the one with the fewest digits is taken, and of two with equally few the
nearer to the value. A tie goes up.

Key definitions: `Number.Shortest.digits`.
-/

namespace Asm6502.Number.Shortest

/-- The reals that round to a positive double, as numbers of quarter units in
the last place: `value = 4 * mantissa`. -/
structure Interval where
  low : Nat
  value : Nat
  high : Nat
  /-- Whether the ends belong to the range. -/
  closed : Bool
  /-- A quarter unit is `numerator / denominator`. -/
  numerator : Nat
  denominator : Nat

/-- The range of the positive double `mantissa * 2 ^ exponent`. Just above a
power of two the doubles below stand twice as close. -/
def interval (mantissa : Nat) (exponent : Int) : Interval where
  low :=
    if mantissa = 0x10000000000000 ∧ exponent ≠ -1074 then 4 * mantissa - 1 else 4 * mantissa - 2
  value := 4 * mantissa
  high := 4 * mantissa + 2
  closed := mantissa % 2 == 0
  numerator := Nat.pow 2 (exponent - 2).toNat
  denominator := Nat.pow 2 (2 - exponent).toNat

/-- The power of ten `10 ^ k` as numerator and denominator. -/
def tenTo (k : Int) : Nat × Nat := (Nat.pow 10 k.toNat, Nat.pow 10 (-k).toNat)

/-- Whether `digits * 10 ^ k` lies in the range. -/
def Interval.contains (i : Interval) (digits : Nat) (k : Int) : Bool :=
  let (up, down) := tenTo k
  let point := digits * up * i.denominator
  let scale := i.numerator * down
  if i.closed then i.low * scale ≤ point && point ≤ i.high * scale
  else i.low * scale < point && point < i.high * scale

/-- The largest whole number of `10 ^ k` that is not above the value. -/
def Interval.below (i : Interval) (k : Int) : Nat :=
  let (up, down) := tenTo k
  i.value * i.numerator * down / (i.denominator * up)

/-- Whether the value is at least half way from `digits` to `digits + 1` units
of `10 ^ k`. -/
def Interval.upperHalf (i : Interval) (digits : Nat) (k : Int) : Bool :=
  let (up, down) := tenTo k
  (2 * digits + 1) * up * i.denominator ≤ 2 * i.value * i.numerator * down

/-- The decimal on the grid of `10 ^ k` that stands for the value, if the range
holds one of its two neighbours there. -/
def Interval.onGrid (i : Interval) (k : Int) : Option Nat :=
  let d := i.below k
  match i.contains d k, i.contains (d + 1) k with
  | false, false => none
  | true, false => some d
  | false, true => some (d + 1)
  | true, true => some (if i.upperHalf d k then d + 1 else d)

/-- The number of decimal digits of `n`, none for zero. -/
def digitCount (n : Nat) : Nat := if n = 0 then 0 else (Nat.toDigits 10 n).length

/-- The power of ten just above the value: `10 ^ (top - 1) ≤ value < 10 ^ top`.
`fuel` bounds the number of zeros after the point. -/
def Interval.top (i : Interval) : Nat → Int → Int
  | 0, k => -k
  | fuel + 1, k => if i.below (-k) = 0 then i.top fuel (k + 1) else digitCount (i.below (-k)) - k

/-- The first grid with a decimal in the range, from `10 ^ k` on to finer ones. -/
def Interval.search (i : Interval) : Nat → Int → Nat × Int
  | 0, k => (i.below k, k)
  | fuel + 1, k =>
    match i.onGrid k with
    | some d => (d, k)
    | none => i.search fuel (k - 1)

/-- The shortest digits of `mantissa * 2 ^ exponent` and the power of ten they
are multiplied by. The value may lie just below a power of ten that stands for
it, so that power is tried first. Seventeen digits always suffice. -/
def digits (mantissa : Nat) (exponent : Int) : Nat × Int :=
  if mantissa = 0 then (0, 0)
  else
    let i := interval mantissa exponent
    i.search 18 (i.top 400 0)

end Asm6502.Number.Shortest
