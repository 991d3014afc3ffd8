/-
# Paths

A path keeps the spelling it was made with. Two paths name the same file when
they have the same steps: repeated slashes, a slash at the end and steps `.`
that are not the first of a relative path do not count, while `..` does.

Key definitions: `Path`, `Path.steps`, `Path.same`, `Path.parent?`,
`Path.join`.
-/

namespace Asm6502

/-- A path as it is spelled. -/
structure Path where
  text : String
deriving DecidableEq, Repr, Inhabited

namespace Path

/-- The pieces of a text between slashes, where `piece` holds the characters of
the current one read so far, in reverse. -/
def piecesFrom (piece : List Char) : List Char → List String
  | [] => [String.ofList piece.reverse]
  | '/' :: cs => String.ofList piece.reverse :: piecesFrom [] cs
  | c :: cs => piecesFrom (c :: piece) cs

/-- The pieces of a text between slashes. -/
def pieces (text : String) : List String := piecesFrom [] text.toList

/-- Whether the path starts at the root. -/
def isAbsolute (p : Path) : Bool := p.text.toList.head? == some '/'

/-- Whether the path holds a character of code 0, which no file name can. -/
def hasNul (p : Path) : Bool := p.text.toList.contains '\x00'

/-- Whether a piece is a step. `first` says that it starts a relative path. -/
def isStep (first : Bool) (piece : String) : Bool :=
  piece != "" && (piece != "." || first)

/-- The pieces that are steps, where `first` says that the first piece starts a
relative path. -/
def stepsOf (first : Bool) : List String → List String
  | [] => []
  | piece :: rest =>
    if isStep first piece then piece :: stepsOf false rest else stepsOf false rest

/-- The steps of a path. -/
def steps (p : Path) : List String := stepsOf (!p.isAbsolute) (pieces p.text)

/-- Whether two paths name the same file. -/
def same (p q : Path) : Bool := p.isAbsolute == q.isAbsolute && p.steps == q.steps

/-- The pieces up to and including the last step, given in reverse. -/
def dropPadding (absolute : Bool) : List String → List String
  | [] => []
  | piece :: rest =>
    if isStep (!absolute && rest.isEmpty) piece then piece :: rest else dropPadding absolute rest

/-- The path without its last step, none if it has no step. -/
def parent? (p : Path) : Option Path :=
  match dropPadding p.isAbsolute (pieces p.text).reverse with
  | [] => none
  | _ :: before =>
    let text := "/".intercalate (dropPadding p.isAbsolute before).reverse
    some ⟨if p.isAbsolute then (if text.isEmpty then "/" else text) else text⟩

/-- The path `name` as seen from `p`. An absolute one stands for itself. -/
def join (p : Path) (name : String) : Path :=
  if (Path.mk name).isAbsolute then ⟨name⟩
  else if p.text.isEmpty || p.text.toList.getLast? == some '/' then ⟨p.text ++ name⟩
  else ⟨p.text ++ "/" ++ name⟩

end Path

end Asm6502
