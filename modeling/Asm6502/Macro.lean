/-
# Macros

A macro is the text between its header and its end, with the names of its
parameters. The table lists macros in the order of their definition and notes
where each is called.

Key definitions: `Macro`, `Macro.addLine`, `MacroTable`, `MacroTable.add`.
-/
import Std.Data.TreeMap
import Asm6502.Diagnostic

namespace Asm6502

/-- A macro. Its body starts on the line after `definedAt`. -/
structure Macro where
  name : String
  parameters : List String
  body : String
  definedAt : Position
deriving DecidableEq, Repr, Inhabited

namespace Macro

/-- A macro without parameters and with an empty body. -/
def ofHeader (name : String) (definedAt : Position) : Macro := ⟨name, [], "", definedAt⟩

/-- The macro with one more line in its body. -/
def addLine (m : Macro) (line : String) : Macro := { m with body := m.body ++ line ++ "\n" }

end Macro

/-- A macro of the table, with the rank of its definition and its calls. -/
structure MacroEntry where
  rank : Nat
  definition : Macro
  references : List Position
deriving Repr, Inhabited

/-- Macros by name. -/
structure MacroTable where
  entries : Std.TreeMap String MacroEntry
  nextRank : Nat

namespace MacroTable

/-- A table without macros. -/
def empty : MacroTable := ⟨∅, 0⟩

instance : Inhabited MacroTable := ⟨empty⟩

/-- The macro of a name. -/
def get? (t : MacroTable) (name : String) : Option Macro :=
  t.entries[name]?.map MacroEntry.definition

/-- Whether a name has a macro. -/
def contains (t : MacroTable) (name : String) : Bool := t.entries.contains name

/-- The table with a macro. One of the same name is replaced in its place. -/
def add (t : MacroTable) (m : Macro) : MacroTable :=
  match t.entries[m.name]? with
  | some entry => { t with entries := t.entries.insert m.name { entry with definition := m } }
  | none => ⟨t.entries.insert m.name ⟨t.nextRank, m, []⟩, t.nextRank + 1⟩

/-- The table with a call of a macro noted, each place once. -/
def addReference (t : MacroTable) (name : String) (place : Position) : MacroTable :=
  match t.entries[name]? with
  | none => t
  | some entry =>
    if entry.references.contains place then t
    else
      { t with
        entries := t.entries.insert name { entry with references := entry.references ++ [place] } }

/-- The macros with their calls, in the order of their definition. -/
def toList (t : MacroTable) : List (Macro × List Position) :=
  let ranked := (t.entries.toList.map (·.2)).mergeSort fun a b => a.rank ≤ b.rank
  ranked.map fun entry => (entry.definition, entry.references)

end MacroTable

end Asm6502
