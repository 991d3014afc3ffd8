/-
# Reading a settings document

A document has a key with its value, a header or nothing on each line, and a
comment may follow. Keys are bare or quoted, and may be dotted. Arrays run over
several lines and may end in a comma; tables in braces do neither. Arrays of
tables are not read.

Key definitions: `Toml.key?`, `Toml.value?`, `Toml.lines?`, `Toml.read?`.
-/
import Asm6502.Toml.Quoted
import Asm6502.Toml.Scalar

namespace Asm6502.Toml

/-- Whether a character can be part of a bare key. -/
def isKeyChar (c : Char) : Bool := c.isAlphanum || c == '_' || c == '-'

/-- The characters after blanks. -/
def skipBlanks (cs : List Char) : List Char := cs.dropWhile isBlank

/-- The characters after blanks, line ends and comments. `comment` says that a
comment has begun. -/
def skipGaps (comment : Bool) : List Char → List Char
  | [] => []
  | '\n' :: cs => skipGaps false cs
  | '\r' :: '\n' :: cs => skipGaps false cs
  | c :: cs =>
    if comment then (if isPlain c then skipGaps true cs else c :: cs)
    else if isBlank c then skipGaps false cs
    else if c == '#' then skipGaps true cs
    else c :: cs

/-- The characters after blanks, an optional comment and the end of the line,
none if anything else comes. -/
def endLine? (cs : List Char) : Option (List Char) :=
  let cs := skipBlanks cs
  let cs := if cs.head? == some '#' then cs.dropWhile isPlain else cs
  match cs with
  | [] => some []
  | '\n' :: cs => some cs
  | '\r' :: '\n' :: cs => some cs
  | _ => none

/-- Reads one part of a key. -/
def keyPart? (cs : List Char) : Option (String × List Char) :=
  match quotedKey? cs with
  | some (text, rest) => some (String.ofList text, rest)
  | none =>
    let text := cs.takeWhile isKeyChar
    if text.isEmpty then none else some (String.ofList text, cs.dropWhile isKeyChar)

/-- Reads the parts of a key and the blanks after it. A part takes at least one
character, so the number of steps need not exceed that of the characters. -/
def keyParts? : Nat → List Char → Option (List String × List Char)
  | 0, _ => none
  | steps + 1, cs => do
    let (part, rest) ← keyPart? (skipBlanks cs)
    match skipBlanks rest with
    | '.' :: rest =>
      let (parts, rest) ← keyParts? steps rest
      return (part :: parts, rest)
    | rest => return ([part], rest)

/-- Reads a key: the parts before its last, its last part, and what follows. -/
def key? (cs : List Char) : Option (List String × String × List Char) := do
  let (parts, rest) ← keyParts? (cs.length + 1) cs
  let last ← parts.getLast?
  return (parts.dropLast, last, rest)

mutual

/-- Reads a value. Every step inward takes at least one character, so the number
of steps need not exceed that of the characters. -/
def value? : Nat → List Char → Option (Item × List Char)
  | 0, _ => none
  | steps + 1, cs =>
    match cs with
    | '"' :: _ | '\'' :: _ =>
      (quoted? cs).map fun (text, rest) => (.string (String.ofList text), rest)
    | '[' :: rest =>
      (items? steps (skipGaps false rest)).map fun (items, rest) => (.array items, rest)
    | '\x7b' :: rest => do
      let (pairs, rest) ← pairs? steps true (skipBlanks rest)
      let entries ← inlineEntries? pairs
      return (.table .inline entries, rest)
    | _ => (scalar? (cs.takeWhile isScalarChar)).map fun item => (item, cs.dropWhile isScalarChar)

/-- Reads the items of an array up to its closing bracket. -/
def items? : Nat → List Char → Option (List Item × List Char)
  | 0, _ => none
  | steps + 1, cs =>
    match cs with
    | ']' :: rest => some ([], rest)
    | _ => do
      let (item, rest) ← value? steps cs
      match skipGaps false rest with
      | ',' :: rest =>
        let (items, rest) ← items? steps (skipGaps false rest)
        return (item :: items, rest)
      | ']' :: rest => return ([item], rest)
      | _ => none

/-- Reads the keys and values of a table in braces up to the closing one, which
may come at once at the `start`. -/
def pairs? : Nat → Bool → List Char → Option (List (List String × String × Item) × List Char)
  | 0, _, _ => none
  | steps + 1, start, cs =>
    match start, cs with
    | true, '\x7d' :: rest => some ([], rest)
    | _, _ => do
      let (path, key, rest) ← key? cs
      match rest with
      | '=' :: rest =>
        let (item, rest) ← value? steps (skipBlanks rest)
        match skipBlanks rest with
        | ',' :: rest =>
          let (pairs, rest) ← pairs? steps false (skipBlanks rest)
          return ((path, key, item) :: pairs, rest)
        | '\x7d' :: rest => return ([(path, key, item)], rest)
        | _ => none
      | _ => none

end

/-- Reads a key with its value. -/
def keyed? (cs : List Char) : Option (Line × List Char) := do
  let (path, key, rest) ← key? cs
  match rest with
  | '=' :: rest =>
    let (item, rest) ← value? (rest.length + 1) (skipBlanks rest)
    return (.entry path key item, rest)
  | _ => none

/-- Reads a header after its opening bracket. -/
def header? (cs : List Char) : Option (Line × List Char) := do
  let (path, key, rest) ← key? cs
  match rest with
  | ']' :: rest => return (.header (path ++ [key]), rest)
  | _ => none

/-- Reads the lines of a document. A line takes at least one character, so the
number of steps need not exceed that of the characters. -/
def linesFrom? : Nat → List Char → Option (List Line)
  | 0, _ => none
  | steps + 1, cs =>
    match skipGaps false cs with
    | [] => some []
    | '[' :: rest => do
      let (line, rest) ← header? rest
      let rest ← endLine? rest
      return line :: (← linesFrom? steps rest)
    | cs => do
      let (line, rest) ← keyed? cs
      let rest ← endLine? rest
      return line :: (← linesFrom? steps rest)

/-- Reads the lines of a document, after a mark of its encoding. -/
def lines? (text : String) : Option (List Line) :=
  let cs := text.toList
  let cs := if cs.head? == some '\ufeff' then cs.tail else cs
  linesFrom? (cs.length + 1) cs

/-- Reads a document, none if it is malformed. -/
def read? (text : String) : Option Entries := lines? text >>= build?

end Asm6502.Toml
