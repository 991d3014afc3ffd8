/-
# Arguments of the command line

A switch has a long name after two dashes and mostly a letter after one. A
value follows in the next argument, or behind `=`, or right behind the letter.
Letters of switches without a value can be joined. A value in an argument of
its own does not start with a dash, unless it is one. After `--` nothing is a
switch.

There is one source, each switch is given at most once except those for
symbols and search directories, and a path is never empty. Asking for help or
for the version is no way to run the program either.

Key definitions: `Switch`, `Given`, `Arguments`, `Arguments.read?`.
-/
import Asm6502.Define
import Asm6502.Files.Path

namespace Asm6502

/-- A switch of the command line. -/
inductive Switch
  | output
  | outDir
  | config
  | define
  | searchPath
  | cpu
  | symbols
  | logLevel
  | help
  | version
deriving DecidableEq, Repr, Inhabited

namespace Switch

/-- The long names. -/
def longNames : List (String × Switch) :=
  [("output", output), ("out-dir", outDir), ("config", config), ("define", define),
   ("include", searchPath), ("cpu", cpu), ("symbols", symbols), ("log-level", logLevel),
   ("help", help), ("version", version)]

/-- The letters. -/
def letters : List (Char × Switch) :=
  [('o', output), ('c', config), ('D', define), ('I', searchPath), ('v', symbols),
   ('l', logLevel), ('h', help), ('V', version)]

/-- Whether a value belongs to the switch. -/
def takesValue : Switch → Bool
  | symbols | help | version => false
  | _ => true

end Switch

/-- What one or two arguments give. -/
inductive Given
  | source (text : String)
  | value (switch : Switch) (text : String)
  | flag (switch : Switch)
deriving DecidableEq, Repr, Inhabited

/-- What an argument gives by itself. -/
inductive Given.Reading
  | done (given : List Given)
  /-- A value for the switch has to follow. -/
  | awaits (given : List Given) (switch : Switch)
  | unknown
deriving DecidableEq, Repr, Inhabited

namespace Given

/-- Reads the letters after a dash. -/
def readLetters : List Char → Reading
  | [] => .done []
  | letter :: cs =>
    match Switch.letters.lookup letter with
    | none => .unknown
    | some switch =>
      if switch.takesValue then
        match cs with
        | [] => .awaits [] switch
        | '=' :: text => .done [.value switch (String.ofList text)]
        | text => .done [.value switch (String.ofList text)]
      else
        match readLetters cs with
        | .done given => .done (.flag switch :: given)
        | .awaits given switch' => .awaits (.flag switch :: given) switch'
        | .unknown => .unknown

/-- Reads a long name, with its value, after two dashes. -/
def readLong (cs : List Char) : Reading :=
  let name := String.ofList (cs.takeWhile (· != '='))
  match Switch.longNames.lookup name, cs.dropWhile (· != '=') with
  | none, _ => .unknown
  | some switch, [] => if switch.takesValue then .awaits [] switch else .done [.flag switch]
  | some switch, _ :: text =>
    if switch.takesValue then .done [.value switch (String.ofList text)] else .unknown

/-- Reads one argument. -/
def readOne (argument : String) : Reading :=
  match argument.toList with
  | '-' :: '-' :: cs => readLong cs
  | '-' :: c :: cs => readLetters (c :: cs)
  | _ => .done [.source argument]

/-- Whether an argument can be the value of the switch before it. -/
def isValue (argument : String) : Bool := argument == "-" || argument.toList.head? != some '-'

/-- Reads the arguments, none if one is unknown or lacks its value. -/
def readAll : List String → Option (List Given)
  | [] => some []
  | "--" :: sources => some (sources.map .source)
  | argument :: arguments =>
    match readOne argument with
    | .unknown => none
    | .done given => (readAll arguments).map (given ++ ·)
    | .awaits given switch =>
      match arguments with
      | [] => none
      | text :: arguments =>
        if isValue text then (readAll arguments).map (given ++ .value switch text :: ·)
        else none

/-- The sources among what is given. -/
def sources (given : List Given) : List String :=
  given.filterMap fun
    | .source text => some text
    | _ => none

/-- The values given for a switch. -/
def values (switch : Switch) (given : List Given) : List String :=
  given.filterMap fun
    | .value s text => if s = switch then some text else none
    | _ => none

end Given

/-- How much of the log is shown. -/
inductive LogLevel
  | error
  | warn
  | info
  | debug
  | trace
deriving DecidableEq, Repr, Inhabited

namespace LogLevel

/-- The words for the levels, which have the numbers from one on. -/
def words : List (String × LogLevel) :=
  [("error", error), ("warn", warn), ("info", info), ("debug", debug), ("trace", trace)]

/-- Reads a level by its number, or by its word in any case. -/
def read? (text : String) : Option LogLevel :=
  match Number.readInteger 10 text.toList with
  | .ok n => if 1 ≤ n then (words.map (·.2))[n.toNat - 1]? else none
  | .error _ => words.lookup (String.ofList (text.toList.map Char.toLower))

end LogLevel

/-- The arguments of the program. -/
structure Arguments where
  source : Path
  output : Option String
  /-- Where saved files are written. -/
  outDir : Path
  /-- The settings file, if not the one beside the source. -/
  config : Option Path
  defines : List (String × Float)
  searchPaths : List Path
  cpu : Option UInt8
  showSymbols : Bool
  logLevel : LogLevel
deriving Repr, Inhabited

namespace Arguments

/-- The only one of a list, if it has any. None if it has several. -/
def atMostOne : List α → Option (Option α)
  | [] => some none
  | [a] => some (some a)
  | _ => none

/-- Reads a path. -/
def readPath? (text : String) : Option Path := if text.isEmpty then none else some ⟨text⟩

/-- Reads a processor number. -/
def readCpu? (text : String) : Option UInt8 :=
  match Number.readInteger 10 text.toList with
  | .ok n => if 0 ≤ n ∧ n ≤ 255 then some (UInt8.ofInt n) else none
  | .error _ => none

/-- Reads the value of a switch that is given at most once. -/
def single? (read : String → Option α) (switch : Switch) (given : List Given) :
    Option (Option α) := do
  match ← atMostOne (Given.values switch given) with
  | none => return none
  | some text => return some (← read text)

/-- Reads the arguments of the program, none if they are rejected. -/
def read? (arguments : List String) : Option Arguments := do
  let given ← Given.readAll arguments
  if given.contains (.flag .help) || given.contains (.flag .version) then none
  if given.count (.flag .symbols) > 1 then none
  let source ← (← atMostOne (Given.sources given)) >>= readPath?
  return {
    source
    output := ← single? some .output given
    outDir := (← single? readPath? .outDir given).getD ⟨"."⟩
    config := ← single? readPath? .config given
    defines := ← (Given.values .define given).mapM fun text => (Define.read text).toOption
    searchPaths := ← (Given.values .searchPath given).mapM readPath?
    cpu := ← single? readCpu? .cpu given
    showSymbols := given.contains (.flag .symbols)
    logLevel := (← single? LogLevel.read? .logLevel given).getD .info }

end Arguments

end Asm6502
