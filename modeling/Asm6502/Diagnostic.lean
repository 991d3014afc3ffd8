/-
# Positions and diagnostics

A `Position` is a place in a file of a run. A diagnostic covers a span of one
line. The same diagnostic found twice, as happens in two passes, is shown
once, where it was found first.

Key definitions: `Position`, `Span`, `Diagnostic`, `Diagnostic.render`,
`Diagnostic.distinct`.
-/

namespace Asm6502

/-- A place in a source file: the index of the file in the run's list, and the
line and byte column counted from zero. -/
structure Position where
  file : Nat
  line : Nat
  column : Nat
deriving DecidableEq, Repr, Inhabited

/-- A line counted from zero and a half-open range of its byte columns. -/
structure Span where
  line : Nat
  start : Nat
  stop : Nat
deriving DecidableEq, Repr, Inhabited

/-- How serious a diagnostic is. -/
inductive Severity
  | error
  | warning
  | information
  | hint
deriving DecidableEq, Repr, Inhabited

/-- The word shown for a severity. -/
def Severity.label : Severity → String
  | .error => "error"
  | .warning => "warning"
  | .information => "info"
  | .hint => "hint"

/-- A message about a span of a line. -/
structure Diagnostic where
  severity : Severity
  span : Span
  message : String
deriving DecidableEq, Repr, Inhabited

namespace Diagnostic

/-- A diagnostic as it is shown, with line and column counted from one. -/
def render (d : Diagnostic) : String :=
  toString (d.span.line + 1) ++ ":" ++ toString (d.span.start + 1) ++ ": " ++ d.severity.label ++
    ": " ++ d.message

/-- Each diagnostic once, in the order of first appearance, after those in
`seen`, which is in reverse. -/
def distinctAfter (seen : List Diagnostic) : List Diagnostic → List Diagnostic
  | [] => seen.reverse
  | d :: ds => if seen.contains d then distinctAfter seen ds else distinctAfter (d :: seen) ds

/-- Each diagnostic once, in the order of first appearance. -/
def distinct (ds : List Diagnostic) : List Diagnostic := distinctAfter [] ds

end Diagnostic

end Asm6502
