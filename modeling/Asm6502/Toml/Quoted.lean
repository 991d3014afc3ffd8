/-
# Quoted texts of a settings document

A text in double quotes has escapes, one in single quotes is taken as it
stands. With three quotes a text may run over several lines: a line end right
after the opening is dropped, up to two quotes may stand before the closing,
and, in double quotes, a backslash at the end of a line takes away the blanks
and line ends that follow.

Every reader here starts after the opening quote and gives the text and what
follows the closing one.

Key definitions: `Toml.basic?`, `Toml.literal?`, `Toml.quoted?`,
`Toml.quotedKey?`.
-/
import Asm6502.Number.Reading
import Asm6502.Text.Cursor

namespace Asm6502.Toml

/-- Whether a character may stand in a comment: no control character but a
tab. -/
def isPlain (c : Char) : Bool := c == '\t' || (' ' ≤ c && c != '\x7f')

/-- The character of a code given by hexadecimal digits. -/
def ofCode? (digits : List Char) : Option Char := do
  let ds ← digits.mapM (Number.digit? 16)
  let n := ds.foldl (fun n d => 16 * n + d) 0
  if n.isValidChar then some (Char.ofNat n) else none

/-- The character that a short escape stands for. -/
def escape? : Char → Option Char
  | 'b' => some '\x08'
  | 't' => some '\t'
  | 'n' => some '\n'
  | 'f' => some '\x0c'
  | 'r' => some '\r'
  | '"' => some '"'
  | '\\' => some '\\'
  | _ => none

/-- A reader's result with a character in front of its text. -/
def withChar (c : Option Char) (result : Option (List Char × List Char)) :
    Option (List Char × List Char) := do
  let c ← c
  let (text, rest) ← result
  return (c :: text, rest)

/-- Reads a text in double quotes. -/
def basic? : List Char → Option (List Char × List Char)
  | [] => none
  | '"' :: cs => some ([], cs)
  | '\\' :: 'u' :: a :: b :: c :: d :: cs => withChar (ofCode? [a, b, c, d]) (basic? cs)
  | '\\' :: 'U' :: a :: b :: c :: d :: e :: f :: g :: h :: cs =>
    withChar (ofCode? [a, b, c, d, e, f, g, h]) (basic? cs)
  | '\\' :: c :: cs => withChar (escape? c) (basic? cs)
  | c :: cs => if isPlain c && c != '\\' then withChar (some c) (basic? cs) else none

/-- Reads a text in single quotes. -/
def literal? : List Char → Option (List Char × List Char)
  | [] => none
  | '\'' :: cs => some ([], cs)
  | c :: cs => if isPlain c then withChar (some c) (literal? cs) else none

/-- Whether only blanks come before the end of the line. -/
def blankLine (cs : List Char) : Bool :=
  match cs.dropWhile isBlank with
  | '\n' :: _ => true
  | '\r' :: '\n' :: _ => true
  | _ => false

/-- Reads a text in three double quotes. Blanks and line ends are dropped while
`trim` is set. -/
def longBasic? (trim : Bool) : List Char → Option (List Char × List Char)
  | [] => none
  | '"' :: '"' :: '"' :: '"' :: '"' :: cs => some (['"', '"'], cs)
  | '"' :: '"' :: '"' :: '"' :: cs => some (['"'], cs)
  | '"' :: '"' :: '"' :: cs => some ([], cs)
  | '\\' :: 'u' :: a :: b :: c :: d :: cs => withChar (ofCode? [a, b, c, d]) (longBasic? false cs)
  | '\\' :: 'U' :: a :: b :: c :: d :: e :: f :: g :: h :: cs =>
    withChar (ofCode? [a, b, c, d, e, f, g, h]) (longBasic? false cs)
  | '\\' :: c :: cs =>
    if blankLine (c :: cs) then longBasic? true (c :: cs)
    else withChar (escape? c) (longBasic? false cs)
  | '\r' :: '\n' :: cs =>
    if trim then longBasic? true cs else withChar (some '\n') (longBasic? false cs)
  | c :: cs =>
    if trim && (isBlank c || c == '\n') then longBasic? true cs
    else if c == '\n' || (isPlain c && c != '\\') then withChar (some c) (longBasic? false cs)
    else none

/-- Reads a text in three single quotes. -/
def longLiteral? : List Char → Option (List Char × List Char)
  | [] => none
  | '\'' :: '\'' :: '\'' :: '\'' :: '\'' :: cs => some (['\'', '\''], cs)
  | '\'' :: '\'' :: '\'' :: '\'' :: cs => some (['\''], cs)
  | '\'' :: '\'' :: '\'' :: cs => some ([], cs)
  | '\r' :: '\n' :: cs => withChar (some '\n') (longLiteral? cs)
  | c :: cs => if c == '\n' || isPlain c then withChar (some c) (longLiteral? cs) else none

/-- The characters after a line end at their start. -/
def dropLineEnd : List Char → List Char
  | '\n' :: cs => cs
  | '\r' :: '\n' :: cs => cs
  | cs => cs

/-- Reads a quoted text from its opening quotes on. -/
def quoted? : List Char → Option (List Char × List Char)
  | '"' :: '"' :: '"' :: cs => longBasic? false (dropLineEnd cs)
  | '\'' :: '\'' :: '\'' :: cs => longLiteral? (dropLineEnd cs)
  | '"' :: cs => basic? cs
  | '\'' :: cs => literal? cs
  | _ => none

/-- Reads a key in quotes, which stays on its line. -/
def quotedKey? : List Char → Option (List Char × List Char)
  | '"' :: cs => basic? cs
  | '\'' :: cs => literal? cs
  | _ => none

end Asm6502.Toml
