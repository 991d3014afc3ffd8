/-
# Symbols

The symbol table maps full names to values. A name is taken by the first that
adds it; later its value can change, or the name is removed and free again.
The table lists its symbols in the order in which they were added, so each
entry keeps the rank of its addition.

A full name is a name followed by the scopes it was defined in, each behind an
`@`; `baseName` takes them off.

Key definitions: `Symbol`, `SymbolTable`, `SymbolTable.add?`,
`SymbolTable.change`, `SymbolTable.erase`, `SymbolTable.toList`,
`SymbolTable.renameLocations`.
-/
import Std.Data.TreeMap
import Asm6502.Diagnostic
import Asm6502.Value

namespace Asm6502

/-- A symbol of the program. -/
structure Symbol where
  value : Value
  isLabel : Bool
  definedAt : Option Position
  /-- Where the symbol is used, each place once, in order of first use. -/
  references : List Position
deriving Repr, Inhabited

/-- Symbols by full name, with the rank of their addition. -/
structure SymbolTable where
  entries : Std.TreeMap String (Nat × Symbol)
  /-- The rank of the next addition. -/
  nextRank : Nat

namespace SymbolTable

/-- A table without symbols. -/
def empty : SymbolTable := ⟨∅, 0⟩

/-- The symbol of a name. -/
def get? (t : SymbolTable) (name : String) : Option Symbol := t.entries[name]?.map (·.2)

/-- Whether a name has a symbol. -/
def contains (t : SymbolTable) (name : String) : Bool := t.entries.contains name

/-- The value of a name. -/
def value? (t : SymbolTable) (name : String) : Option Value := (t.get? name).map Symbol.value

/-- The table with a new symbol, none if the name is taken. -/
def add? (t : SymbolTable) (name : String) (value : Value) (isLabel : Bool)
    (definedAt : Option Position) : Option SymbolTable :=
  if t.contains name then none
  else
    some ⟨t.entries.insert name (t.nextRank, ⟨value, isLabel, definedAt, []⟩), t.nextRank + 1⟩

/-- The table with a new symbol; a name that is taken stays as it is. -/
def add (t : SymbolTable) (name : String) (value : Value) (isLabel : Bool)
    (definedAt : Option Position) : SymbolTable :=
  (t.add? name value isLabel definedAt).getD t

/-- The table with the symbol of a name changed, if there is one. -/
def update (t : SymbolTable) (name : String) (f : Symbol → Symbol) : SymbolTable :=
  match t.entries[name]? with
  | none => t
  | some (rank, symbol) => { t with entries := t.entries.insert name (rank, f symbol) }

/-- The table with the value of a name changed, if it has one. -/
def change (t : SymbolTable) (name : String) (value : Value) : SymbolTable :=
  t.update name fun symbol => { symbol with value }

/-- The table without a name. -/
def erase (t : SymbolTable) (name : String) : SymbolTable :=
  { t with entries := t.entries.erase name }

/-- The table with a use of a name noted. -/
def addReference (t : SymbolTable) (name : String) (place : Position) : SymbolTable :=
  t.update name fun symbol =>
    if symbol.references.contains place then symbol
    else { symbol with references := symbol.references ++ [place] }

/-- The places that spell a symbol: its definition and then its uses. -/
def renameLocations (t : SymbolTable) (name : String) : List Position :=
  match t.get? name with
  | none => []
  | some symbol => symbol.definedAt.toList ++ symbol.references

/-- The number of symbols. -/
def size (t : SymbolTable) : Nat := t.entries.size

/-- The symbols with their names, in the order of their addition. -/
def toList (t : SymbolTable) : List (String × Symbol) :=
  let ranked := t.entries.toList.mergeSort fun a b => a.2.1 ≤ b.2.1
  ranked.map fun (name, _, symbol) => (name, symbol)

/-- The ratio of a circle's circumference to its diameter. -/
def pi : Float := 3.141592653589793

/-- The names that every program starts with. -/
def predefined : SymbolTable :=
  let constant (t : SymbolTable) (name : String) (n : Float) := t.add name (.num n) false none
  constant (constant (constant (constant (constant empty "PI" pi) "P%" 0) "TRUE" (-1)) "FALSE" 0)
    "CPU" 0

instance : Inhabited SymbolTable := ⟨predefined⟩

end SymbolTable

/-- A full name without the scopes it was defined in. -/
def baseName (name : String) : String := String.ofList (name.toList.takeWhile (· != '@'))

end Asm6502
