/-
# Scopes

Braces, loops and macro calls open scopes. A scope has a number of its own in
the pass and counts its iterations, which only a loop has more than one of.
A symbol defined in a scope has the scope's number and count in its full
name, for every scope open at that point, innermost first. A name is looked
up from the innermost scope outwards.

Open scopes are listed innermost first.

Key definitions: `Frame`, `suffix`, `fullName`, `visibleName?`, `lookUp`,
`Loop.next?`.
-/
import Asm6502.Pass
import Asm6502.SymbolTable

namespace Asm6502

/-- A place in a buffer: the index of a line and a byte column. -/
structure Spot where
  index : Nat
  column : Nat
deriving DecidableEq, Repr, Inhabited

/-- The loop of a `FOR`. -/
structure Loop where
  name : String
  current : Float
  limit : Float
  step : Float
  /-- Where the next iteration starts. -/
  resume : Spot
deriving Repr, Inhabited

/-- What opened a scope. -/
inductive FrameKind
  | brace
  | loop (l : Loop)
  | expansion
deriving Repr, Inhabited

/-- An open scope. -/
structure Frame where
  kind : FrameKind
  id : Nat
  /-- The number of iterations before this one. -/
  count : Nat
  openedAt : Spot
deriving Repr, Inhabited

namespace Frame

/-- Whether the scope is a loop. -/
def isLoop (f : Frame) : Bool :=
  match f.kind with
  | .loop _ => true
  | _ => false

/-- Whether the scope is a pair of braces. -/
def isBrace (f : Frame) : Bool :=
  match f.kind with
  | .brace => true
  | _ => false

/-- Whether the scope is a macro call. -/
def isExpansion (f : Frame) : Bool :=
  match f.kind with
  | .expansion => true
  | _ => false

/-- Whether no iteration came before this one. -/
def isFirstIteration (f : Frame) : Bool := f.count == 0

/-- What the scope adds to the names defined in it. -/
def tag (f : Frame) : String := "@" ++ toString f.id ++ "_" ++ toString f.count

end Frame

namespace Loop

/-- The loop variable in the next iteration, none if the loop ends. A positive
step counts up to the limit, any other one down to it. -/
def next? (l : Loop) : Option Loop :=
  let current := l.current + l.step
  let done := if l.step > 0 then current > l.limit else current < l.limit
  if done then none else some { l with current }

end Loop

/-- The most scopes that can be open at once. -/
def maxScopes : Nat := 256

/-- What the open scopes add to a name. -/
def suffix : List Frame → String
  | [] => ""
  | f :: frames => f.tag ++ suffix frames

/-- The name of a symbol defined in the open scopes. -/
def fullName (name : String) (frames : List Frame) : String := name ++ suffix frames

/-- The full name of the nearest definition of a name that the open scopes
see. -/
def visibleName? (symbols : SymbolTable) (name : String) : List Frame → Option String
  | [] => if symbols.contains name then some name else none
  | f :: frames =>
    if symbols.contains (fullName name (f :: frames)) then some (fullName name (f :: frames))
    else visibleName? symbols name frames

/-- The value of a name as the open scopes see it. The second pass notes the
place as a use of the symbol. -/
def lookUp (pass : Pass) (symbols : SymbolTable) (frames : List Frame) (name : String)
    (place : Position) : Option Value × SymbolTable :=
  match visibleName? symbols name frames with
  | none => (none, symbols)
  | some full =>
    (symbols.value? full, if pass = .second then symbols.addReference full place else symbols)

end Asm6502
