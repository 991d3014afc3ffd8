/-
# Unquoted values of a settings document

A value without quotes or brackets is a truth value, an integer or a float.
Digits may have single underscores between them. A decimal integer has no
leading zero; hexadecimal, octal and binary ones have a mark and no sign, and
all must fit 64 bits. A float has a point followed by digits, an exponent, or
both. A float too large to be finite is refused if it is positive.

Dates and times are not read.

Key definitions: `Toml.scalar?`.
-/
import Asm6502.Number.Parts
import Asm6502.Number.Reading
import Asm6502.Toml.Table

namespace Asm6502.Toml

/-- Whether a character can be part of an unquoted value. -/
def isScalarChar (c : Char) : Bool :=
  c.isAlphanum || c == '_' || c == '+' || c == '-' || c == '.'

/-- Whether characters are digits with single underscores between them. -/
def areDigits (isDigit : Char → Bool) : List Char → Bool
  | [] => false
  | [c] => isDigit c
  | c :: '_' :: cs => isDigit c && areDigits isDigit cs
  | c :: cs => isDigit c && areDigits isDigit cs

/-- Characters without underscores. -/
def withoutMarks (cs : List Char) : List Char := cs.filter (· != '_')

/-- Characters without a sign in front. -/
def withoutSign (cs : List Char) : List Char := (Number.sign cs).2

/-- Whether characters are the digits of a decimal integer without sign. -/
def isDecimal (cs : List Char) : Bool :=
  areDigits Char.isDigit cs && (cs.head? != some '0' || cs.length == 1)

/-- Whether characters are an exponent after its mark. -/
def isExponent (cs : List Char) : Bool := areDigits Char.isDigit (withoutSign cs)

/-- Whether a character marks an exponent. -/
def isExponentMark (c : Char) : Bool := c == 'e' || c == 'E'

/-- Whether characters are a float without sign. -/
def isFloat (cs : List Char) : Bool :=
  let number := cs.takeWhile (!isExponentMark ·)
  let whole := number.takeWhile (· != '.')
  let places := number.drop (whole.length + 1)
  let hasPoint := whole.length < number.length
  let hasExponent := number.length < cs.length
  isDecimal whole && (hasPoint || hasExponent) && (!hasPoint || areDigits Char.isDigit places) &&
    (!hasExponent || isExponent (cs.drop (number.length + 1)))

/-- Reads an integer whose digits have passed the check. -/
def integer? (base : Nat) (cs : List Char) : Option Item :=
  (Number.readInteger base (withoutMarks cs)).toOption.map Item.integer

/-- Reads an integer with a mark for its base. -/
def marked? (base : Nat) (cs : List Char) : Option Item :=
  if areDigits (fun c => (Number.digit? base c).isSome) cs then integer? base cs else none

/-- Reads a decimal integer or a float. -/
def number? (cs : List Char) : Option Item :=
  if isDecimal (withoutSign cs) then integer? 10 cs
  else if isFloat (withoutSign cs) then
    match Number.readDecimal (withoutMarks cs) with
    | .ok x => if x == 1 / 0 then none else some (.float x)
    | .error _ => none
  else none

/-- Reads an unquoted value as a whole. -/
def scalar? (cs : List Char) : Option Item :=
  match cs with
  | ['t', 'r', 'u', 'e'] => some (.boolean true)
  | ['f', 'a', 'l', 's', 'e'] => some (.boolean false)
  | '0' :: 'x' :: ds => marked? 16 ds
  | '0' :: 'o' :: ds => marked? 8 ds
  | '0' :: 'b' :: ds => marked? 2 ds
  | _ =>
    match Number.sign cs with
    | (negative, ['i', 'n', 'f']) => some (.float (if negative then -(1 / 0) else 1 / 0))
    | (_, ['n', 'a', 'n']) => some (.float (0 / 0))
    | _ => number? cs

end Asm6502.Toml
