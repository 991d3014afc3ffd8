/-
# Faults

What can be wrong with a statement, and the wording of each. A fault of the
object code arises when bytes are placed in memory, every other one while a
statement is read. A `Problem` is a fault at a byte column of its line.

Key definitions: `MemoryFault`, `Fault`, `Fault.message`, `Problem`.
-/

namespace Asm6502

/-- Why bytes cannot be placed in memory as asked. -/
inductive MemoryFault
  | outOfMemory
  | guardHit
  | overlap
  | inconsistentCode
  | indirectJumpBug
deriving DecidableEq, Repr

/-- The wording of a memory fault. -/
def MemoryFault.message : MemoryFault → String
  | .outOfMemory => "Out of memory."
  | .guardHit => "Guard point hit."
  | .overlap => "Trying to assemble over existing code."
  | .inconsistentCode =>
    "Assembled object code has changed between 1st and 2nd pass. " ++
      "Has a zero-page symbol been forward-declared?"
  | .indirectJumpBug =>
    "JMP (addr) will not execute as intended due to 6502 bug (addr = &xxFF)."

/-- What is wrong with a statement. -/
inductive Fault
  | numberTooBig
  | symbolNotDefined
  | badHex
  | badBinary
  | emptyExpression
  | unexpectedComma
  | parameterCount
  | invalidCharacter
  | mismatchedParentheses
  | missingValue
  | missingQuote
  | divisionByZero
  | typeMismatch
  | illegalOperation
  | missingComma
  | noImplied
  | noImmediate
  | immediateTooLarge
  | immediateNegative
  | noIndexedX
  | noIndexedY
  | noAbsolute
  | badIndexed
  | notZeroPage
  | branchOutOfRange
  | badAddress
  | outOfRange
  | badAlignment
  | backwardsSkip
  | labelAlreadyDefined
  | invalidSymbolName
  | secondPassProblem
  | badStep
  | tooManyScopes
  | mismatchedBraces
  | nextWithoutFor
  | forWithoutNext
  | tooManyIfs
  | elseWithoutIf
  | elifWithoutIf
  | elifAfterElse
  | elseAfterElse
  | endifWithoutIf
  | ifWithoutEndif
  | endMacroUnexpected
  | noEndMacro
  | noNestedMacros
  | duplicateMacroName
  | macroNotFound
  | unrecognisedToken
  | cannotInclude
  | tooManyIncludes
  | tooManyEvals
  | fileOpen
  | noAnonymousSave
  | promoteOutOfFor
  | promoteOutOfMacro
  | assertionFailed
  | userError (message : String)
  | memory (fault : MemoryFault)
deriving DecidableEq, Repr

/-- The wording of a fault. -/
def Fault.message : Fault → String
  | .numberTooBig => "Number too big."
  | .symbolNotDefined => "Symbol not defined."
  | .badHex => "Bad hex."
  | .badBinary => "Bad binary expression."
  | .emptyExpression => "Expression not found."
  | .unexpectedComma => "Unexpected comma encountered."
  | .parameterCount => "Wrong number of parameters."
  | .invalidCharacter => "Bad expression."
  | .mismatchedParentheses => "Mismatched parentheses."
  | .missingValue => "Missing value in expression."
  | .missingQuote => "Unterminated string."
  | .divisionByZero => "Division by zero."
  | .typeMismatch => "Type mismatch."
  | .illegalOperation => "Illegal operation."
  | .missingComma => "Missing comma."
  | .noImplied => "Implied mode not allowed for this instruction."
  | .noImmediate => "Immediate mode not allowed for this instruction."
  | .immediateTooLarge => "Immediate constants cannot be greater than 255."
  | .immediateNegative => "Constant cannot be negative."
  | .noIndexedX => "X indexed mode does not exist for this instruction."
  | .noIndexedY => "Y indexed mode does not exist for this instruction."
  | .noAbsolute => "Absolute addressing mode not allowed for this instruction."
  | .badIndexed => "Bad indexed addressing."
  | .notZeroPage => "Address is not in zero-page."
  | .branchOutOfRange => "Branch out of range."
  | .badAddress => "Out of range address."
  | .outOfRange => "Value out of range."
  | .badAlignment => "Bad alignment."
  | .backwardsSkip => "Attempted to skip backwards to an address."
  | .labelAlreadyDefined => "Symbol already defined."
  | .invalidSymbolName =>
    "Invalid symbol name; must start with a letter and contain only numbers and underscore."
  | .secondPassProblem =>
    "Fatal error: the second assembler pass has generated different code to the first."
  | .badStep => "Step value cannot be zero."
  | .tooManyScopes => "Too many nested FORs or braces."
  | .mismatchedBraces => "Mismatched braces."
  | .nextWithoutFor => "NEXT without FOR."
  | .forWithoutNext => "FOR without NEXT."
  | .tooManyIfs => "Too many nested IFs."
  | .elseWithoutIf => "ELSE without IF."
  | .elifWithoutIf => "ELIF without IF."
  | .elifAfterElse => "ELIF after ELSE."
  | .elseAfterElse => "ELSE after ELSE."
  | .endifWithoutIf => "ENDIF without IF."
  | .ifWithoutEndif => "IF without ENDIF."
  | .endMacroUnexpected => "ENDMACRO encountered without a corresponding MACRO."
  | .noEndMacro => "Unterminated macro (ENDMACRO not found)."
  | .noNestedMacros => "Macro definitions cannot be nested."
  | .duplicateMacroName => "Macro name already defined."
  | .macroNotFound => "Macro not found."
  | .unrecognisedToken => "Unrecognised token."
  | .cannotInclude => "Cannot include a source file within a FOR loop."
  | .tooManyIncludes => "Too many nested INCLUDEs."
  | .tooManyEvals => "Too many nested EVAL or ASM calls."
  | .fileOpen => "Error opening file."
  | .noAnonymousSave =>
    "Cannot specify SAVE without a filename if no default output filename has been specified."
  | .promoteOutOfFor => "Cannot promote a label out of a FOR loop."
  | .promoteOutOfMacro => "Cannot promote a label out of a macro."
  | .assertionFailed => "Assertion failed."
  | .userError message => message
  | .memory fault => fault.message

/-- A fault at a byte column of its line. -/
structure Problem where
  fault : Fault
  column : Nat
deriving DecidableEq, Repr

/-- Puts what is wrong at a column. -/
def Fault.located (column : Nat) : Except Fault α → Except Problem α
  | .ok a => .ok a
  | .error fault => .error ⟨fault, column⟩

end Asm6502
