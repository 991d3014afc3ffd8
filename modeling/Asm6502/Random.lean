/-
# Random numbers

A linear congruential generator on 32 bits. A draw is a number below 32768
taken from the upper half of the new state.

Key definitions: `Random`, `Random.draw`.
-/

namespace Asm6502

/-- The state of the generator. -/
structure Random where
  state : UInt32
deriving DecidableEq, Repr, Inhabited

namespace Random

/-- The generator started from a seed. -/
def ofSeed (seed : Int) : Random := ⟨UInt32.ofInt seed⟩

/-- Every draw is below this number. -/
def range : Nat := 32768

/-- The next number and the generator after it. -/
def draw (r : Random) : Nat × Random :=
  let state := r.state * 1103515245 + 12345
  ((state / 65536 % 32768).toNat, ⟨state⟩)

/-- The next `n` numbers. -/
def draws : Nat → Random → List Nat
  | 0, _ => []
  | n + 1, r => r.draw.1 :: draws n r.draw.2

end Random

end Asm6502
