/-
# Whitespace

The characters with the Unicode property White_Space. Only reading a number
out of a text looks past them; statements are separated by blanks alone.

Key definitions: `Text.isWhitespace`, `Text.trimStart`.
-/

namespace Asm6502.Text

/-- The ranges of code points with the property White_Space. -/
def whitespaceRanges : List (Nat × Nat) :=
  [(0x09, 0x0D), (0x20, 0x20), (0x85, 0x85), (0xA0, 0xA0), (0x1680, 0x1680), (0x2000, 0x200A),
   (0x2028, 0x2029), (0x202F, 0x202F), (0x205F, 0x205F), (0x3000, 0x3000)]

/-- Whether a character is whitespace. -/
def isWhitespace (c : Char) : Bool :=
  whitespaceRanges.any fun (low, high) => low ≤ c.toNat && c.toNat ≤ high

/-- The characters after leading whitespace. -/
def trimStart (cs : List Char) : List Char := cs.dropWhile isWhitespace

end Asm6502.Text
