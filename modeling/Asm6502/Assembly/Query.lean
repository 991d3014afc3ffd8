/-
# Questions about an assembly

What an editor or a command line asks of a finished run: the diagnostics of
each file, the tree of a line, the places that spell a symbol, and where a
byte in memory came from. A byte from a macro has a chain of places: the
statement in the macro, the call, and so on outwards.

Key definitions: `Location`, `Assembly.diagnostics`, `Assembly.hasErrors`,
`Assembly.sourceChain`, `Assembly.renameLocations`.
-/
import Asm6502.Assembly

namespace Asm6502

/-- A place in a source file, by path. -/
structure Location where
  path : Path
  line : Nat
  column : Nat
deriving DecidableEq, Repr, Inhabited

namespace Assembly

/-- The diagnostics of a file, each once. -/
def diagnosticsOf (a : Assembly) (file : Nat) : List Diagnostic :=
  Diagnostic.distinct (a.run.diagnosticsOf file)

/-- The diagnostics of every file that has any, files in the order of their
first. -/
def diagnostics (a : Assembly) : List (Path × List Diagnostic) :=
  a.run.reportedFiles.filterMap fun file =>
    (a.run.filePath? file).map fun path => (path, a.diagnosticsOf file)

/-- The diagnostics of the file at a path. -/
def diagnosticsAt (a : Assembly) (path : Path) : List Diagnostic :=
  ((a.run.fileIndex? path).map a.diagnosticsOf).getD []

/-- Whether an error was reported. -/
def hasErrors (a : Assembly) : Bool :=
  a.run.reports.any fun (_, d) => d.severity == .error

/-- The tree of a line of the file at a path. -/
def tree? (a : Assembly) (path : Path) (line : Nat) : Option Node :=
  (a.run.fileIndex? path).bind fun file => a.run.tree? file line

/-- The bytes from `start` up to `stop`. -/
def bytes (a : Assembly) (start stop : Nat) : List UInt8 := a.run.code.bytes start stop

/-- The bytes that a save asks for. -/
def savedBytes (a : Assembly) (save : Save) : List UInt8 := a.bytes save.start save.stop

/-- A position with the path of its file. -/
def locate (a : Assembly) (p : Position) : Option Location :=
  (a.run.filePath? p.file).map fun path => ⟨path, p.line, p.column⟩

/-- Where an origin and the calls around it are, innermost first, at most `n`
of them. -/
def chainFrom (a : Assembly) : Nat → Option Origin → List Location
  | n + 1, some here =>
    (a.locate ⟨here.file, here.line, here.column⟩).toList ++
      chainFrom a n (here.parent.bind a.run.code.callSite?)
  | _, _ => []

/-- Where the byte at an address came from, and the calls around it, innermost
first. A call is noted after the calls around it, so a chain is never longer
than their number and one. -/
def sourceChain (a : Assembly) (address : Nat) : List Location :=
  a.chainFrom (a.run.code.callSites.size + 1) (a.run.code.origin? address)

/-- The places that spell a symbol: its definition and then its uses. -/
def renameLocations (a : Assembly) (name : String) : List Location :=
  (a.run.symbols.renameLocations name).filterMap a.locate

end Assembly

end Asm6502
