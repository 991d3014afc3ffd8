/-
# The lines of a text

A line feed ends a line and takes one carriage return before it along. What
follows the last line feed is a line of its own unless it is empty; there a
carriage return stays, as it does anywhere else inside a line.

Key definitions: `Text.lines`.
-/

namespace Asm6502.Text

/-- A line, given its characters in reverse, without the carriage return that
stood before the line feed. -/
def endedLine : List Char → String
  | '\r' :: cs => String.ofList cs.reverse
  | cs => String.ofList cs.reverse

/-- The lines of `cs`, where `line` holds the characters of the current line
read so far, in reverse. -/
def linesFrom (line : List Char) : List Char → List String
  | [] => if line.isEmpty then [] else [String.ofList line.reverse]
  | '\n' :: cs => endedLine line :: linesFrom [] cs
  | c :: cs => linesFrom (c :: line) cs

/-- The lines of a text, without their ends. -/
def lines (text : String) : List String := linesFrom [] text.toList

end Asm6502.Text
