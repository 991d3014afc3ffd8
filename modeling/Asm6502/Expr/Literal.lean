/-
# Literals

Numbers in decimal, hexadecimal and binary, character codes and strings. Each
reader looks at the characters from the literal on and gives its value and the
number of characters it takes.

An underscore may separate digits. A hexadecimal or binary literal may have as
many digits as it likes, as long as those after the leading zeros fit 32 bits.

Key definitions: `Literal.decimal`, `Literal.radix`, `Literal.character`,
`Literal.string`.
-/
import Asm6502.Number.Reading
import Asm6502.Value

namespace Asm6502.Literal

/-- A decimal number. -/
def decimal (cs : List Char) : Except Fault (Value × Nat) :=
  let digits := Number.leadingDecimal (fun c => c.isDigit || c == '_') cs
  match Number.readDecimal (digits.filter (· != '_')) with
  | .error _ => .error .invalidCharacter
  | .ok n => if n.isInf then .error .numberTooBig else .ok (.num n, digits.length)

/-- The digits in a base that start `cs`, and the number of characters they
take. After a digit, an underscore may stand before the next one. -/
def digitsAfter (base : Nat) : List Char → List Nat × Nat
  | [] => ([], 0)
  | '_' :: cs =>
    match cs with
    | [] => ([], 0)
    | c :: rest =>
      match Number.digit? base c with
      | none => ([], 0)
      | some d =>
        let (ds, n) := digitsAfter base rest
        (d :: ds, n + 2)
  | c :: cs =>
    match Number.digit? base c with
    | none => ([], 0)
    | some d =>
      let (ds, n) := digitsAfter base cs
      (d :: ds, n + 1)

/-- The digits in a base that start `cs`, the first without an underscore, and
the number of characters they take. -/
def digits (base : Nat) (cs : List Char) : List Nat × Nat :=
  if cs.head? == some '_' then ([], 0) else digitsAfter base cs

/-- The value of digits in a base, kept to 48 bits. -/
def ofDigits (base : Nat) (ds : List Nat) : Nat :=
  ds.foldl (fun n d => (n * base + d) % 0x1000000000000) 0

/-- The digits after the marker of a base. `limit` is the most that may follow
the leading zeros, and `bad` the fault of a marker without a digit. -/
def radix (base limit : Nat) (bad : Fault) (cs : List Char) : Except Fault (Value × Nat) :=
  let (ds, n) := digits base cs
  if ds.isEmpty then .error bad
  else if (ds.dropWhile (· == 0)).length > limit then .error .numberTooBig
  else .ok (.ofNat (ofDigits base ds), n)

/-- The code of a character of one byte between single quotes, given the
characters after the first quote. -/
def character (cs : List Char) : Except Fault (Value × Nat) :=
  match cs with
  | c :: '\'' :: _ => if c.utf8Size = 1 then .ok (.ofNat c.toNat, 2) else .error .missingQuote
  | _ => .error .missingQuote

/-- The text up to the quote that ends a string, where a doubled quote stands
for one, and the number of characters up to and with that quote. -/
def quoted : List Char → Option (List Char × Nat)
  | [] => none
  | '"' :: cs =>
    match cs with
    | '"' :: rest => (quoted rest).map fun (text, n) => ('"' :: text, n + 2)
    | _ => some ([], 1)
  | c :: cs => (quoted cs).map fun (text, n) => (c :: text, n + 1)

/-- A string, given the characters after the first quote. -/
def string (cs : List Char) : Except Fault (Value × Nat) :=
  match quoted cs with
  | none => .error .missingQuote
  | some (text, n) => .ok (.str (String.ofList text), n)

end Asm6502.Literal
