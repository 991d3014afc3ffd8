/-
# Reading numbers

A decimal is an optional sign, digits with an optional point among or around
them, and an optional exponent; or one of the words for infinity and for what
is not a number. It is rounded to the nearest double. An integer in a base is
an optional sign and digits, and must fit 64 bits.

Key definitions: `Number.readDecimal`, `Number.readInteger`, `Number.leading`.
-/
import Asm6502.Text.Whitespace

namespace Asm6502.Number

/-- Why a text is no decimal number. -/
inductive DecimalError
  | empty
  | malformed
deriving DecidableEq, Repr

/-- The wording of an error. -/
def DecimalError.message : DecimalError → String
  | .empty => "cannot parse float from empty string"
  | .malformed => "invalid float literal"

/-- Why a text is no integer. -/
inductive IntegerError
  | empty
  | badDigit
  | tooLarge
  | tooSmall
deriving DecidableEq, Repr

/-- The wording of an error. -/
def IntegerError.message : IntegerError → String
  | .empty => "cannot parse integer from empty string"
  | .badDigit => "invalid digit found in string"
  | .tooLarge => "number too large to fit in target type"
  | .tooSmall => "number too small to fit in target type"

/-- The value of a digit in a base of at most 16. -/
def digit? (base : Nat) (c : Char) : Option Nat :=
  let d :=
    if c.isDigit then some (c.toNat - '0'.toNat)
    else if 'a' ≤ c ∧ c ≤ 'f' then some (c.toNat - 'a'.toNat + 10)
    else if 'A' ≤ c ∧ c ≤ 'F' then some (c.toNat - 'A'.toNat + 10)
    else none
  d.filter (· < base)

/-- The value of digits in base ten. -/
def ofDigits (cs : List Char) : Nat := cs.foldl (fun n c => 10 * n + (c.toNat - '0'.toNat)) 0

/-- The decimal power beyond which every mantissa of at most that many digits is
infinite or zero. -/
def exponentLimit : Nat := 400

/-- The double nearest to `mantissa * 10 ^ exponent`. -/
def ofDecimal (mantissa : Nat) (exponent : Int) : Float :=
  let size := exponent + (Nat.toDigits 10 mantissa).length
  if mantissa = 0 then 0
  else if size > exponentLimit then 1 / 0
  else if size < -exponentLimit then 0
  else Float.ofScientific mantissa (exponent < 0) exponent.natAbs

/-- An optional sign and the characters after it. -/
def sign : List Char → Bool × List Char
  | '-' :: cs => (true, cs)
  | '+' :: cs => (false, cs)
  | cs => (false, cs)

/-- The exponent that `cs` consists of, none if it is not one. -/
def exponent? : List Char → Option Int
  | [] => some 0
  | c :: cs =>
    if c == 'e' || c == 'E' then
      let (negative, ds) := sign cs
      if ds.isEmpty || !ds.all Char.isDigit then none
      else some (if negative then -(ofDigits ds : Int) else ofDigits ds)
    else none

/-- An unsigned decimal. -/
def unsigned? (cs : List Char) : Option Float :=
  let whole := cs.takeWhile Char.isDigit
  let rest := cs.dropWhile Char.isDigit
  let (places, rest) :=
    match rest with
    | '.' :: ds => (ds.takeWhile Char.isDigit, ds.dropWhile Char.isDigit)
    | ds => ([], ds)
  if whole.isEmpty && places.isEmpty then none
  else (exponent? rest).map fun e => ofDecimal (ofDigits (whole ++ places)) (e - places.length)

/-- The words for infinity and for what is not a number, in any case. -/
def word? (cs : List Char) : Option Float :=
  match String.ofList (cs.map Char.toLower) with
  | "inf" => some (1 / 0)
  | "infinity" => some (1 / 0)
  | "nan" => some (0 / 0)
  | _ => none

/-- Reads a decimal number. -/
def readDecimal (cs : List Char) : Except DecimalError Float :=
  if cs.isEmpty then .error .empty
  else
    let (negative, ds) := sign cs
    match (unsigned? ds).or (word? ds) with
    | some x => .ok (if negative then -x else x)
    | none => .error .malformed

/-- The value of digits after the value `n`. Of a digit that is none and a value
above `limit`, the one met first is the error. -/
def accumulate (base limit n : Nat) (overflow : IntegerError) : List Char → Except IntegerError Nat
  | [] => .ok n
  | c :: cs =>
    match digit? base c with
    | none => .error .badDigit
    | some d =>
      if base * n + d > limit then .error overflow
      else accumulate base limit (base * n + d) overflow cs

/-- Reads an integer of 64 bits in a base. -/
def readInteger (base : Nat) (cs : List Char) : Except IntegerError Int :=
  if cs.isEmpty then .error .empty
  else
    let (negative, ds) := sign cs
    if ds.isEmpty then .error .badDigit
    else if negative then
      (accumulate base 0x8000000000000000 0 .tooSmall ds).map fun n => -(n : Int)
    else (accumulate base 0x7FFFFFFFFFFFFFFF 0 .tooLarge ds).map fun n => (n : Int)

/-- The characters of the exponent at the start of `cs`, none unless a digit
follows the mark and its sign. -/
def leadingExponent (cs : List Char) : List Char :=
  match cs with
  | mark :: rest =>
    if mark == 'e' || mark == 'E' then
      let (signed, ds) :=
        match rest with
        | '-' :: ds => (['-'], ds)
        | '+' :: ds => (['+'], ds)
        | ds => ([], ds)
      let digits := ds.takeWhile Char.isDigit
      if digits.isEmpty then [] else mark :: signed ++ digits
    else []
  | [] => []

/-- The characters of the decimal at the start of `cs`, where `isPart` says what
may stand among the digits of the mantissa. -/
def leadingDecimal (isPart : Char → Bool) (cs : List Char) : List Char :=
  let whole := cs.takeWhile isPart
  let rest := cs.dropWhile isPart
  match rest with
  | '.' :: ds =>
    let places := ds.takeWhile isPart
    whole ++ '.' :: places ++ leadingExponent (ds.dropWhile isPart)
  | ds => whole ++ leadingExponent ds

/-- The number that a text starts with after whitespace, zero if there is none. -/
def leading (text : String) : Float :=
  let cs := Text.trimStart text.toList
  let (signed, ds) :=
    match cs with
    | '-' :: ds => (['-'], ds)
    | '+' :: ds => (['+'], ds)
    | ds => ([], ds)
  match readDecimal (signed ++ leadingDecimal Char.isDigit ds) with
  | .ok x => x
  | .error _ => 0

end Asm6502.Number
