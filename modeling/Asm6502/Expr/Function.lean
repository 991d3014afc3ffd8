/-
# Functions

A function is called by its name with the bracket right behind it, in any
case, and takes a fixed number of arguments. `RND` draws from the generator
and `TIME$` looks at the clock; `EVAL` is not here because it evaluates an
expression (`Asm6502.Expr.Eval`).

Key definitions: `Function`, `Function.table`, `Function.find?`,
`Function.apply`.
-/
import Asm6502.Calendar
import Asm6502.Expr.Operator
import Asm6502.Number.Reading
import Asm6502.Random
import Asm6502.SymbolTable

namespace Asm6502

/-- A function that expressions can call. -/
inductive Function
  | high
  | low
  | sine
  | cosine
  | tangent
  | arcSine
  | arcCosine
  | arcTangent
  | squareRoot
  | radians
  | degrees
  | whole
  | absolute
  | signum
  | random
  | complement
  | log10
  | ln
  | exponential
  | time
  | hexText
  | numberText
  | numberValue
  | eval
  | length
  | character
  | code
  | middle
  | left
  | right
  | repeated
  | upper
  | lower
deriving DecidableEq, Repr, Inhabited

namespace Function

/-- The functions with their names and numbers of arguments. A name comes before
its beginnings. -/
def table : List (Function × String × Nat) :=
  [(high, "HI", 1), (low, "LO", 1), (sine, "SIN", 1), (cosine, "COS", 1), (tangent, "TAN", 1),
   (arcSine, "ASN", 1), (arcCosine, "ACS", 1), (arcTangent, "ATN", 1), (squareRoot, "SQR", 1),
   (radians, "RAD", 1), (degrees, "DEG", 1), (whole, "INT", 1), (absolute, "ABS", 1),
   (signum, "SGN", 1), (random, "RND", 1), (complement, "NOT", 1), (log10, "LOG", 1),
   (ln, "LN", 1), (exponential, "EXP", 1), (time, "TIME$", 1), (hexText, "STR$~", 1),
   (numberText, "STR$", 1), (numberValue, "VAL", 1), (eval, "EVAL", 1), (length, "LEN", 1),
   (character, "CHR$", 1), (code, "ASC", 1), (middle, "MID$", 3), (left, "LEFT$", 2),
   (right, "RIGHT$", 2), (repeated, "STRING$", 2), (upper, "UPPER$", 1), (lower, "LOWER$", 1)]

/-- The name of a function. -/
def name (f : Function) : String := ((table.lookup f).map (·.1)).getD ""

/-- The number of arguments that a function takes. -/
def arity (f : Function) : Nat := ((table.lookup f).map (·.2)).getD 1

/-- The function whose name and bracket start `cs`. -/
def find? (cs : List Char) : Option Function :=
  (table.find? fun (_, name, _) => startsWith (name.toList ++ ['(']) cs).map (·.1)

/-- A number that must be finite. -/
def finite (n : Float) : Except Fault Value :=
  if n.isNaN || n.isInf then .error .illegalOperation else .ok (.num n)

/-- The logarithm of a number that must be positive. -/
def logarithm (log : Float → Float) (v : Value) : Except Fault Value := do
  let n ← v.number
  if n <= 0 then throw .illegalOperation else return .num (log n)

/-- A text `count` times, as long as the result has less than 65536 characters. -/
def repeatText (count : Int) (text : String) : Except Fault Value :=
  if count < 0 then .error .illegalOperation
  else if count.toNat * text.length ≥ 65536 then .error .outOfRange
  else if text.isEmpty then .ok (.str "")
  else .ok (.str (String.ofList (List.replicate count.toNat text.toList).flatten))

/-- `count` characters of a text, or all that is left, from the place `start`
counted from one. -/
def middleText (text : String) (start count : Int) : Except Fault Value :=
  if start < 1 || start > text.length + 1 || count < 0 then .error .illegalOperation
  else .ok (.str (String.ofList ((text.toList.drop (start - 1).toNat).take count.toNat)))

/-- A draw below `n` rounded down, or, for one, a number from zero up to one. -/
def randomBelow (n : Float) (r : Random) : Value × Random :=
  let (k, r) := r.draw
  let fraction := Float.ofNat k / Float.ofNat Random.range
  (.num (if n == 1 then fraction else Number.floor (fraction * n)), r)

/-- The value of a function of its arguments that neither draws nor looks at the
clock. -/
def pureApply (f : Function) (a b c : Value) : Except Fault Value :=
  match f with
  | high => do return .ofInt ((← a.integer) / 256 % 256)
  | low => do return .ofInt ((← a.integer) % 256)
  | sine => do finite (← a.number).sin
  | cosine => do finite (← a.number).cos
  | tangent => do finite (← a.number).tan
  | arcSine => do finite (← a.number).asin
  | arcCosine => do finite (← a.number).acos
  | arcTangent => do finite (← a.number).atan
  | squareRoot => do finite (← a.number).sqrt
  | radians => do return .num ((← a.number) * SymbolTable.pi / 180)
  | degrees => do return .num ((← a.number) * 180 / SymbolTable.pi)
  | whole => do return .num (Number.truncate (← a.number))
  | absolute => do return .num (← a.number).abs
  | signum => do
    let n ← a.number
    return .num (if n > 0 then 1 else if n < 0 then -1 else 0)
  | complement => do return .ofInt (-(← a.integer) - 1)
  | log10 => logarithm Float.log10 a
  | ln => logarithm Float.log a
  | exponential => do finite (← a.number).exp
  | hexText => do return .str (Number.hexadecimal ((← a.integer) % 0x100000000).toNat)
  | numberText => do return .str (Number.format (← a.number))
  | numberValue => do return .num (Number.leading (← a.text))
  | length => do return .ofNat (← a.text).length
  | character => do
    let n ← a.integer
    if n < 0 || n > 255 then throw .illegalOperation
    else return .str (String.singleton (Char.ofNat n.toNat))
  | code => do
    match (← a.text).toList with
    | [] => throw .illegalOperation
    | x :: _ => return .ofNat x.toNat
  | middle => do middleText (← a.text) (← b.integer) (← c.integer)
  | left => do
    let text ← a.text
    let count ← b.integer
    if count > text.length then throw .illegalOperation else middleText text 1 count
  | right => do
    let text ← a.text
    let count ← b.integer
    if count > text.length then throw .illegalOperation
    else middleText text (text.length - count + 1) count
  | repeated => do repeatText (← a.integer) (← b.text)
  | upper => do return .str (String.ofList ((← a.text).toList.map Char.toUpper))
  | lower => do return .str (String.ofList ((← a.text).toList.map Char.toLower))
  | random | time | eval => .error .illegalOperation

/-- The value of a function of its arguments, at a time given in seconds, and
the generator after it. -/
def apply (f : Function) (clock : Int) (arguments : List Value) (r : Random) :
    Except Fault (Value × Random) :=
  let a := arguments.getD 0 default
  match f with
  | random => do
    let n ← a.number
    if n < 1 then throw .illegalOperation else return randomBelow n r
  | time => do return (.str (Calendar.format clock (← a.text)), r)
  | _ =>
    (f.pureApply a (arguments.getD 1 default) (arguments.getD 2 default)).map fun v => (v, r)

end Function

end Asm6502
