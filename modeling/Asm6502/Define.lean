/-
# Symbols defined from outside

A symbol can be defined before a run as `NAME=number`. The name is all that
stands before the first `=`.

Key definitions: `Define.read`, `DefineError`.
-/
import Asm6502.Number.Reading

namespace Asm6502

/-- Why a text defines no symbol. -/
inductive DefineError
  | noSign (text : String)
  | number (error : Number.DecimalError)
deriving DecidableEq, Repr

/-- The wording of an error. -/
def DefineError.message : DefineError → String
  | .noSign text => "invalid SYMBOL=value: no `=` found in `" ++ text ++ "`"
  | .number error => error.message

namespace Define

/-- Reads the definition of a symbol. -/
def read (text : String) : Except DefineError (String × Float) :=
  let isName := fun c : Char => c != '='
  match text.toList.dropWhile isName with
  | [] => .error (.noSign text)
  | _ :: number =>
    match Number.readDecimal number with
    | .ok n => .ok (String.ofList (text.toList.takeWhile isName), n)
    | .error e => .error (.number e)

end Define

end Asm6502
