/-
# Sessions

A session holds the latest assembly of a document and hands out tickets for
new runs. Each ticket, and each cancellation, starts a new generation and
overtakes every run before it. The result of a run that was overtaken is never
published.

Key definitions: `Session`, `Session.begin`, `Session.cancel`,
`Session.publish`, `Session.reparse`.
-/
import Asm6502.Assembly

namespace Asm6502

/-- The state of a session. -/
structure Session where
  generation : Nat
  /-- The assembly published last. -/
  current : Option Assembly
deriving Inhabited

namespace Session

/-- A session before its first run. -/
def empty : Session := ⟨0, none⟩

/-- Starts a run, which overtakes every earlier one. -/
def begin (s : Session) : Ticket × Session :=
  (.issued (s.generation + 1), { s with generation := s.generation + 1 })

/-- Overtakes every run. -/
def cancel (s : Session) : Session := { s with generation := s.generation + 1 }

/-- Whether a ticket has been overtaken. -/
def isCancelled (s : Session) (ticket : Ticket) : Bool := ticket.isCancelled s.generation

/-- Makes an assembly the current one unless its ticket has been overtaken, and
says whether it did. -/
def publish (s : Session) (ticket : Ticket) (a : Assembly) : Bool × Session :=
  if s.isCancelled ticket then (false, s) else (true, { s with current := some a })

/-- Assembles a document for a ticket. -/
def assemble (s : Session) (library : Library) (path : Path) (options : Options) (clock : Int)
    (ticket : Ticket) : Except AssembleError Assembly × Session :=
  let outcome := Asm6502.assemble library path options clock ticket s.generation
  (outcome.result, { s with generation := outcome.generation })

/-- Assembles a document and publishes the result. A run that is overtaken
leaves the current assembly in place and has no result. -/
def reparse (s : Session) (library : Library) (path : Path) (options : Options) (clock : Int) :
    Except AssembleError (Option Assembly) × Session :=
  let (ticket, s) := s.begin
  match s.assemble library path options clock ticket with
  | (.ok a, s) =>
    let (published, s) := s.publish ticket a
    (.ok (if published then s.current else none), s)
  | (.error .cancelled, s) => (.ok none, s)
  | (.error e, s) => (.error e, s)

end Session

end Asm6502
