/-
# Project settings

A project keeps its settings in a file: directories to search, symbols to
define, the processor and the name of the output. A symbol is given as a
number, or as text: `&` or `$` in front of hexadecimal digits, `%` in front of
binary ones, or a decimal. Keys are taken in the order of the document, and
an unknown one is refused. Among the symbols, something that is neither
number nor text is refused before any text is read.

Key definitions: `Settings`, `Settings.read`, `SettingsError`.
-/
import Asm6502.Toml.Document

namespace Asm6502

/-- The settings of a project. -/
structure Settings where
  /-- Directories to search for files. -/
  searchPaths : List String := []
  defines : List (String × Float) := []
  cpu : Option UInt8 := none
  /-- The file name of a `SAVE` that gives none. -/
  output : Option String := none
deriving Repr, Inhabited

/-- Why a text gives no settings. -/
inductive SettingsError
  /-- The text is no document, or a key is unknown or of the wrong kind. -/
  | malformed
  | badNumber (text : String) (error : Number.DecimalError)
  | badInteger (text : String) (base : Nat) (error : Number.IntegerError)
deriving DecidableEq, Repr

/-- The wording of an error, none if it is not told what is wrong. -/
def SettingsError.message? : SettingsError → Option String
  | .malformed => none
  | .badNumber text error => some (text ++ " is not a valid number: " ++ error.message)
  | .badInteger text base error =>
    some (text ++ " is not a valid base " ++ toString base ++ " value: " ++ error.message)

namespace Settings

/-- The name of the settings file of a project. -/
def fileName : String := "beebasm.toml"

/-- Reads a number in a base from digits that follow the mark of a text. -/
def readMarked (text : String) (base : Nat) (digits : List Char) : Except SettingsError Float :=
  match Number.readInteger base digits with
  | .ok n => .ok (Float.ofInt n)
  | .error e => .error (.badInteger text base e)

/-- Reads the number that a text gives to a symbol. -/
def readNumber (text : String) : Except SettingsError Float :=
  match text.toList with
  | '&' :: digits => readMarked text 16 digits
  | '$' :: digits => readMarked text 16 digits
  | '%' :: digits => readMarked text 2 digits
  | cs =>
    match Number.readDecimal cs with
    | .ok x => .ok x
    | .error e => .error (.badNumber text e)

/-- Whether an item can be the value of a symbol. -/
def isNumeric : Toml.Item → Bool
  | .integer _ | .float _ | .string _ => true
  | _ => false

/-- The number that an item gives to a symbol. -/
def symbolNumber : Toml.Item → Except SettingsError Float
  | .integer n => .ok (Float.ofInt n)
  | .float x => .ok x
  | .string text => readNumber text
  | _ => .error .malformed

/-- The symbols of a table. -/
def symbols (entries : Toml.Entries) : Except SettingsError (List (String × Float)) :=
  if entries.all fun (_, item) => isNumeric item then
    entries.mapM fun (name, item) => return (name, ← symbolNumber item)
  else .error .malformed

/-- The text that an item must be. -/
def asText : Toml.Item → Except SettingsError String
  | .string s => .ok s
  | _ => .error .malformed

/-- The settings with a key taken. -/
def take (s : Settings) : String × Toml.Item → Except SettingsError Settings
  | ("include", .array items) => return { s with searchPaths := ← items.mapM asText }
  | ("defines", .table _ entries) => return { s with defines := ← symbols entries }
  | ("cpu", .integer n) =>
    if 0 ≤ n ∧ n ≤ 255 then .ok { s with cpu := some (UInt8.ofInt n) } else .error .malformed
  | ("output", .string name) => .ok { s with output := some name }
  | _ => .error .malformed

/-- Reads settings. -/
def read (text : String) : Except SettingsError Settings :=
  match Toml.read? text with
  | none => .error .malformed
  | some entries => entries.foldlM take {}

end Settings

end Asm6502
