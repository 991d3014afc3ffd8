/-
# Tables of a settings document

A document is a table from keys to items, in the order in which the keys first
come. A table is opened in one of four ways: by a header, as part of a longer
header, by a dotted key, or in braces. A key is never given twice. A header
opens a table once, though it may follow longer headers through it. A dotted
key goes only through tables that no header has opened and that stand in no
braces, and it ends in one that dotted keys have made.

Key definitions: `Toml.Item`, `Toml.Entries`, `Toml.insertItem?`,
`Toml.openHeader?`, `Toml.build?`.
-/

namespace Asm6502.Toml

/-- How a table was opened. -/
inductive TableForm
  | header
  /-- Part of a longer header. -/
  | implied
  /-- Part of a dotted key. -/
  | dotted
  /-- In braces. -/
  | inline
deriving DecidableEq, Repr, Inhabited

/-- What a key stands for. -/
inductive Item
  | string (s : String)
  | integer (n : Int)
  | float (x : Float)
  | boolean (b : Bool)
  | array (items : List Item)
  | table (form : TableForm) (entries : List (String × Item))
deriving Repr, Inhabited

/-- The keys of a table with their items, in order. -/
abbrev Entries := List (String × Item)

/-- The item of a key. -/
def get? (entries : Entries) (key : String) : Option Item :=
  (entries.find? fun entry => entry.1 == key).map (·.2)

/-- The entries with the item of a key replaced. -/
def replace (entries : Entries) (key : String) (item : Item) : Entries :=
  entries.map fun entry => if entry.1 == key then (key, item) else entry

/-- The entries without a key. -/
def erase (entries : Entries) (key : String) : Entries :=
  entries.filter fun entry => entry.1 != key

/-- Adds an item under a dotted key, whose last part is `key`, to a table opened
in a form. None if the key is taken or goes through something else. -/
def insertItem? (key : String) (item : Item) : List String → TableForm → Entries → Option Entries
  | [], form, entries =>
    if form = .implied || (get? entries key).isSome then none else some (entries ++ [(key, item)])
  | step :: path, _, entries =>
    match get? entries step with
    | none =>
      (insertItem? key item path .dotted []).map fun inner =>
        entries ++ [(step, .table .dotted inner)]
    | some (.table form inner) =>
      if form = .header || form = .inline then none
      else
        (insertItem? key item path form inner).map fun inner =>
          replace entries step (.table form inner)
    | some _ => none

/-- Opens the table of a header. A table that longer headers went through is
moved to the end. -/
def openHeader? : List String → Entries → Option Entries
  | [], entries => some entries
  | [key], entries =>
    match get? entries key with
    | none => some (entries ++ [(key, .table .header [])])
    | some (.table .implied inner) => some (erase entries key ++ [(key, .table .header inner)])
    | some _ => none
  | step :: path, entries =>
    match get? entries step with
    | none =>
      (openHeader? path []).map fun inner => entries ++ [(step, .table .implied inner)]
    | some (.table form inner) =>
      if form = .inline then none
      else (openHeader? path inner).map fun inner => replace entries step (.table form inner)
    | some _ => none

/-- Changes the entries of the table at a path of keys. -/
def modifyAt? (f : Entries → Option Entries) : List String → Entries → Option Entries
  | [], entries => f entries
  | step :: path, entries =>
    match get? entries step with
    | some (.table form inner) =>
      (modifyAt? f path inner).map fun inner => replace entries step (.table form inner)
    | _ => none

/-- A line of a document: a header, or a key with its item. -/
inductive Line
  | header (path : List String)
  | entry (path : List String) (key : String) (item : Item)
deriving Repr, Inhabited

/-- The document so far and the table that is open. -/
structure Building where
  root : Entries
  opened : List String
deriving Repr, Inhabited

/-- Takes the next line. -/
def Building.take? (b : Building) : Line → Option Building
  | .header path => (openHeader? path b.root).map fun root => ⟨root, path⟩
  | .entry path key item =>
    (modifyAt? (insertItem? key item path .header) b.opened b.root).map fun root => { b with root }

/-- The document made of lines, none if a key or a table is given twice. -/
def build? (lines : List Line) : Option Entries :=
  (lines.foldlM Building.take? ⟨[], []⟩).map Building.root

/-- The entries of a table in braces. -/
def inlineEntries? (pairs : List (List String × String × Item)) : Option Entries :=
  pairs.foldlM (fun entries (path, key, item) => insertItem? key item path .inline entries) []

end Asm6502.Toml
