/-
# Blocks of cells

A block of `2 ^ d` cells is either uniform, all cells alike, or split into two
halves. A fresh memory is one uniform block, and changing a cell splits only
the blocks around it, so an old block stays as it was.

Key definitions: `Block`, `Block.get`, `Block.set`, `Block.mapRange`,
`Block.toList`.
-/

namespace Asm6502

/-- A block of `2 ^ d` cells. -/
inductive Block (α : Type) : Nat → Type
  | uniform {d : Nat} (a : α) : Block α d
  | halves {d : Nat} (low high : Block α d) : Block α (d + 1)

namespace Block

/-- The two halves of a block. -/
def split : Block α (d + 1) → Block α d × Block α d
  | uniform a => (uniform a, uniform a)
  | halves low high => (low, high)

/-- The cell at an index below `2 ^ d`. -/
def get : {d : Nat} → Block α d → Nat → α
  | _, uniform a, _ => a
  | d + 1, halves low high, i => if i < Nat.pow 2 d then low.get i else high.get (i - Nat.pow 2 d)

/-- The block with the cell at an index below `2 ^ d` replaced. -/
def set : {d : Nat} → Block α d → Nat → α → Block α d
  | 0, _, _, a => uniform a
  | d + 1, b, i, a =>
    if i < Nat.pow 2 d then halves (b.split.1.set i a) b.split.2
    else halves b.split.1 (b.split.2.set (i - Nat.pow 2 d) a)

/-- The block with every cell changed. -/
def map (f : α → α) : Block α d → Block α d
  | uniform a => uniform (f a)
  | halves low high => halves (low.map f) (high.map f)

/-- The block with the cells from `start` up to `stop` changed. -/
def mapRange (f : α → α) : {d : Nat} → Block α d → Nat → Nat → Block α d
  | d, b, start, stop =>
    if stop ≤ start || Nat.pow 2 d ≤ start then b
    else if start = 0 && Nat.pow 2 d ≤ stop then b.map f
    else
      match d, b with
      | 0, b => b
      | d + 1, b =>
        halves (b.split.1.mapRange f start stop)
          (b.split.2.mapRange f (start - Nat.pow 2 d) (stop - Nat.pow 2 d))

/-- The cells in order. -/
def toList : {d : Nat} → Block α d → List α
  | d, uniform a => List.replicate (Nat.pow 2 d) a
  | _, halves low high => low.toList ++ high.toList

/-- The cells from `start` up to `stop`. -/
def slice (b : Block α d) (start stop : Nat) : List α :=
  (List.range' start (stop - start)).map b.get

/-- The block with cells put one after the other from an index on. -/
def setAll (b : Block α d) (i : Nat) : List α → Block α d
  | [] => b
  | a :: as => (b.set i a).setAll (i + 1) as

end Block

end Asm6502
