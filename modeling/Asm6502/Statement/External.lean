/-
# Directives that name files

`INCLUDE` runs another source file in the open scopes and `INCBIN` copies the
bytes of a file. `SAVE` asks for a part of memory to be written out. The `PUT`
directives only name a file for the disc image.

Key definitions: `LineM.includeFile`, `LineM.includeBytes`, `LineM.save`,
`LineM.putFile`, `LineM.putBasic`.
-/
import Asm6502.Statement.Argument

namespace Asm6502.LineM

/-- Finds the file that a statement names, and notes the link in the second
pass. -/
def resolveFile (name : String) (column : Nat) (kind : LinkKind) : LineM Path := do
  let run ← getRun
  let origin := (run.filePath? (← getWalk).buffer.file).getD ⟨""⟩
  modifyRun fun r => { r with lookups := r.lookups.push (origin, name) }
  match (← read).library.resolve origin name with
  | none => fail .fileOpen column
  | some target =>
    if ← isSecondPass then
      let link := ⟨kind, target, ← position column, name.utf8ByteSize + 2⟩
      modifyRun fun r => { r with links := r.links.push link }
    return target

/-- Reads a file. Meanwhile the run may be overtaken. -/
def readFile (path : Path) (column : Nat) : LineM ByteArray := do
  let library := (← read).library
  modifyRun (·.noteRead (library.interruptions · path))
  match library.read path with
  | .ok bytes => return bytes
  | .error _ => fail .fileOpen column

/-- Runs the lines of a buffer inside the scopes given. -/
def runBuffer (allowance : Allowance) (buffer : Buffer) (frames : List Frame) : LineM Unit :=
  fun env s =>
    match env.runBuffer allowance buffer frames s.run with
    | some run => .ok () { s with run }
    | none => .error .exhausted s

/-- Does `m` inside an included file. -/
def included (m : LineM α) : LineM α := do
  modifyRun fun r => { r with depth.includes := r.depth.includes + 1 }
  m.andThen fun s => { s with run.depth.includes := s.run.depth.includes - 1 }

/-- `INCLUDE` runs another source file. -/
def includeFile (start : Nat) : LineM Unit := do
  let argument ← text
  let name ← argument.take .any
  expectEnd
  let walk ← getWalk
  if walk.inLoop then fail .cannotInclude start
  match (← read).allowance with
  | ⟨0, _⟩ => fail .tooManyIncludes start
  | ⟨includes + 1, evals⟩ =>
    let path ← resolveFile name argument.column .source
    match Library.textOf (← readFile path argument.column) with
    | .error _ => fail .fileOpen argument.column
    | .ok contents =>
      let (file, run) := (← getRun).addFile path
      modifyRun fun _ => run
      let buffer := .ofText file contents 0 walk.buffer.callSite
      included (runBuffer ⟨includes, evals⟩ buffer walk.frames)

/-- `INCBIN` copies the bytes of a file. -/
def includeBytes (start : Nat) : LineM Unit := do
  let argument ← text
  let name ← argument.take .any
  expectEnd
  let path ← resolveFile name argument.column .binary
  let bytes ← readFile path argument.column
  writeEach true start bytes.toList

/-- `SAVE` asks for a part of memory to be written to a file. -/
def save (start : Nat) : LineM Unit := do
  let name ← optionalText
  let first ← (← integer).take (Rule.address.tolerating 0)
  let stop ← (← integer).take (Rule.addressEnd.tolerating 0)
  let exec ← (← integer).take (Rule.address.defaulting first)
  let reload ← (← integer).take (Rule.address.defaulting first)
  expectEnd
  match name.or (← getRun).options.defaultOutput with
  | none => fail .noAnonymousSave start
  | some name =>
    if ← isSecondPass then
      if stop < first then fail .outOfRange start
      let save :=
        ⟨name, first.toNat, stop.toNat, exec.toNat, reload.toNat, ← position start⟩
      modifyRun fun r => { r with saves := r.saves.push save }

/-- `PUTFILE` and `PUTTEXT` name a file, optionally its name on the disc, and its
addresses. -/
def putFile (kind : LinkKind) : LineM Unit := do
  let argument ← text
  let name ← argument.take .any
  let _ ← optionalText
  let first ← (← integer).take (Rule.address.tolerating 0)
  let _ ← (← integer).take (Rule.address.defaulting first)
  expectEnd
  let _ ← resolveFile name argument.column kind

/-- `PUTBASIC` names a file and optionally its name on the disc. -/
def putBasic : LineM Unit := do
  let argument ← text
  let name ← argument.take .any
  let _ ← optionalText
  expectEnd
  let _ ← resolveFile name argument.column .putBasic

end Asm6502.LineM
