/-
# Directives

The words and signs that a statement can start with, besides mnemonics and
names. A word is matched in any case and only as a whole. Some directives are
executed even where statements are skipped, so that blocks stay balanced.

Key definitions: `Directive`, `Directive.find?`, `Directive.isStructural`.
-/
import Asm6502.Text.Cursor

namespace Asm6502

/-- What a statement can start with. -/
inductive Directive
  | label
  | comment
  | separator
  | openBrace
  | closeBrace
  | print
  | cpu
  | org
  | includeFile
  | includeBytes
  | bytes
  | doubleWords
  | strings
  | words
  | assert
  | save
  | forLoop
  | next
  | ifBlock
  | elifBlock
  | elseBlock
  | endif
  | align
  | skipTo
  | skip
  | guardAddress
  | clear
  | mapCharacters
  | putFile
  | putText
  | putBasic
  | macroHeader
  | endMacro
  | error
  | copyBlock
  | randomize
  | asm
deriving DecidableEq, Repr, Inhabited

namespace Directive

/-- The spellings of the directives. -/
def spellings : List (String × Directive) :=
  [(".", label), ("\\", comment), (";", comment), (":", separator), ("\x7b", openBrace),
   ("\x7d", closeBrace), ("PRINT", print), ("CPU", cpu), ("ORG", org), ("INCLUDE", includeFile),
   ("INCBIN", includeBytes), ("EQUB", bytes), ("EQUD", doubleWords), ("EQUS", strings),
   ("EQUW", words), ("ASSERT", assert), ("SAVE", save), ("FOR", forLoop), ("NEXT", next),
   ("IF", ifBlock), ("ELIF", elifBlock), ("ELSE", elseBlock), ("ENDIF", endif), ("ALIGN", align),
   ("SKIPTO", skipTo), ("SKIP", skip), ("GUARD", guardAddress), ("CLEAR", clear),
   ("MAPCHAR", mapCharacters), ("PUTFILE", putFile), ("PUTTEXT", putText),
   ("PUTBASIC", putBasic), ("MACRO", macroHeader), ("ENDMACRO", endMacro), ("ERROR", error),
   ("COPYBLOCK", copyBlock), ("RANDOMIZE", randomize), ("ASM", asm)]

/-- Whether `cs` starts with a spelling. After one made of letters, nothing that
would continue a name may follow. -/
def spelledAt (spelling : String) (cs : List Char) : Bool :=
  let word := spelling.toList
  startsWith word cs &&
    !(word.head?.any Char.isAlpha && (cs.drop word.length).head?.any isNameChar)

/-- The directive at the start of `cs`, with its spelling. -/
def find? (cs : List Char) : Option (String × Directive) :=
  spellings.find? fun (spelling, _) => spelledAt spelling cs

/-- Whether the directive is executed even where statements are skipped. -/
def isStructural : Directive → Bool
  | comment | separator | ifBlock | elifBlock | elseBlock | endif | macroHeader | endMacro => true
  | _ => false

end Directive

end Asm6502
