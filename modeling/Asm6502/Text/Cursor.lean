/-
# Places in a line

A line is read from left to right. A `Cursor` holds the byte column reached
and the characters from there on, so reading is recursion on a list while
columns are still the UTF-8 offsets that diagnostics show. Every move is
`Cursor.skip n`, past `n` characters: the column grows by the bytes they take.

Key definitions: `Cursor`, `Cursor.skip`, `Cursor.skipBlanks`, `Cursor.upTo`,
`Cursor.name`, `statementLength`.
-/

namespace Asm6502

/-- The number of bytes that characters take in UTF-8. -/
def byteLength : List Char → Nat
  | [] => 0
  | c :: cs => c.utf8Size + byteLength cs

/-- Blanks separate the parts of a statement. -/
def isBlank (c : Char) : Bool := c == ' ' || c == '\t'

/-- A name starts with a letter or an underscore. -/
def isNameStart (c : Char) : Bool := c.isAlpha || c == '_'

/-- A name goes on with letters, digits and underscores. -/
def isNameChar (c : Char) : Bool := c.isAlphanum || c == '_'

/-- A colon, a semicolon or a backslash ends a statement. -/
def isStatementEnd (c : Char) : Bool := c == ':' || c == ';' || c == '\\'

/-- Whether `cs` starts with the upper-case `word`, in any case. -/
def startsWith (word : List Char) (cs : List Char) : Bool :=
  (cs.take word.length).map Char.toUpper == word

/-- The number of characters of the name that starts `cs`: name characters,
then at most one `%` or `$`. -/
def nameLength (cs : List Char) : Nat :=
  let body := (cs.takeWhile isNameChar).length
  match cs.drop body with
  | '%' :: _ => body + 1
  | '$' :: _ => body + 1
  | _ => body

/-- The number of characters up to the end of a statement that is not
executed. A separator inside quotes, in a character literal or in brackets
does not end it. -/
def statementLength (quoted : Bool) (depth : Nat) : List Char → Nat
  | [] => 0
  | c :: cs =>
    if quoted then
      statementLength (c != '"') depth cs + 1
    else if c == '"' then
      statementLength true depth cs + 1
    else if c == '\'' then
      match cs with
      | x :: '\'' :: rest =>
        if x.utf8Size = 1 then statementLength false depth rest + 3
        else statementLength false depth (x :: '\'' :: rest) + 1
      | rest => statementLength false depth rest + 1
    else if c == '(' then
      statementLength false (depth + 1) cs + 1
    else if c == ')' then
      statementLength false (depth - 1) cs + 1
    else if isStatementEnd c && depth == 0 then
      0
    else
      statementLength false depth cs + 1

/-- The characters after the first `n` bytes. -/
def dropBytes : Nat → List Char → List Char
  | 0, cs => cs
  | _, [] => []
  | n + 1, c :: cs => dropBytes (n + 1 - c.utf8Size) cs

/-- A byte column of a line and the characters from there to its end. -/
structure Cursor where
  column : Nat
  rest : List Char
deriving DecidableEq, Repr, Inhabited

namespace Cursor

/-- The start of a text. -/
def ofText (text : String) : Cursor := ⟨0, text.toList⟩

/-- The place at a byte column of a text. -/
def ofColumn (text : String) (column : Nat) : Cursor := ⟨column, dropBytes column text.toList⟩

/-- The next character, if any is left. -/
def peek (c : Cursor) : Option Char := c.rest.head?

/-- Moves past `n` characters. -/
def skip (n : Nat) (c : Cursor) : Cursor :=
  ⟨c.column + byteLength (c.rest.take n), c.rest.drop n⟩

/-- Moves past all blanks. -/
def skipBlanks (c : Cursor) : Cursor := c.skip (c.rest.takeWhile isBlank).length

/-- Moves to the end of a statement that is not executed. -/
def skipStatement (c : Cursor) : Cursor := c.skip (statementLength false 0 c.rest)

/-- Moves to the end of the line. -/
def skipLine (c : Cursor) : Cursor := c.skip c.rest.length

/-- Whether nothing of a statement is left, blanks apart. -/
def atStatementEnd (c : Cursor) : Bool :=
  match c.skipBlanks.rest with
  | [] => true
  | x :: _ => isStatementEnd x

/-- The characters from `c` up to the later place `d`. -/
def upTo (c d : Cursor) : List Char := c.rest.take (c.rest.length - d.rest.length)

/-- The name at the cursor, which may be empty, and the place after it. -/
def name (c : Cursor) : String × Cursor :=
  (String.ofList (c.rest.take (nameLength c.rest)), c.skip (nameLength c.rest))

/-- Whether a name starts here. -/
def atName (c : Cursor) : Bool :=
  match c.rest with
  | [] => false
  | x :: _ => isNameStart x

/-- Whether the statement here gives a name a value: a name, blanks, `=`. -/
def atAssignment (c : Cursor) : Bool :=
  c.atName && ((c.skip (nameLength c.rest)).skipBlanks.peek == some '=')

end Cursor

end Asm6502
