/-
# Passes

The first pass finds out what names stand for and tolerates names that are
not defined yet. The second pass assembles for good and keeps a record of what
it does. A later pass does neither.
-/

namespace Asm6502

/-- A pass over the source. -/
inductive Pass
  | first
  | second
  | later
deriving DecidableEq, Repr, Inhabited

end Asm6502
