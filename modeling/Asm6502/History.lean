/-
# The history of a run

A run notes what it finds under names, which labels it places, and that it
executes the text of an `ASM`. Nothing in a run depends on these notes; they
are what can be said about a run as a whole.

Key definitions: `Note`.
-/
import Asm6502.Pass
import Asm6502.Value

namespace Asm6502

/-- What a run notes. -/
inductive Note
  /-- A value was found under a full name. -/
  | found (pass : Pass) (full : String) (value : Value)
  /-- A label was executed at a program counter without a fault. -/
  | placed (pass : Pass) (full : String) (pc : Nat)
  /-- The text of an `ASM` is executed. -/
  | inlined
deriving DecidableEq, Repr, Inhabited

end Asm6502
