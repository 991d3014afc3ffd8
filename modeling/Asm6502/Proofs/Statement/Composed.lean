/-
# How statements are put together

Besides steps that keep to their line a statement takes three that do not: it
reads a file, it runs the lines of a buffer, and it executes the text of an
`ASM`. `Composed` lists these and the ways to put steps together. What holds of
each of them, and is kept by putting steps together, holds of every statement and
of every line.

The first such fact: as a line goes on, its run keeps its ticket and the session
never goes back to an earlier generation.

Key definitions: `LineM.Composed`, `Meter.Precedes`, `Setting.KeepsTime`.
Key theorems: `LineM.composed_statement`, `LineM.composed_statements`,
`LineM.Composed.precedes`.
-/
import Asm6502.Proofs.Statement.Routine

namespace Asm6502
namespace LineM

/-- Whether a step is put together from routine ones, reads of files, runs of other
lines and texts of `ASM`. -/
inductive Composed : {α : Type} → LineM α → Prop
  | routine {α : Type} {m : LineM α} [h : IsLocal m] : Composed m
  | bind {α β : Type} {x : LineM β} {f : β → LineM α} (hx : Composed x) (hf : ∀ b, Composed (f b)) :
      Composed (x >>= f)
  /-- The setting may be looked at, but for how other lines are run. -/
  | read {α : Type} {f : Setting → LineM α} (hf : ∀ env env', Setting.Agrees env env' → f env' = f env)
      (h : ∀ env, Composed (f env)) : Composed (MonadReader.read >>= f)
  /-- The run may be looked at, but for its meter. -/
  | getRun {α : Type} {f : Run → LineM α} (hf : ∀ r meter, f (r.withMeter meter) = f r)
      (h : ∀ r, Composed (f r)) : Composed (LineM.getRun >>= f)
  | andThen {α : Type} {m : LineM α} {last : LineState → LineState} (hm : Composed m)
      (hlast : ∀ s meter, last (s.withMeter meter) = (last s).withMeter meter) : Composed (m.andThen last)
  | noteRead (interruptions : Nat → Nat) : Composed (modifyRun (·.noteRead interruptions))
  | runBuffer (allowance : Allowance) (buffer : Buffer) (frames : List Frame) :
      Composed (LineM.runBuffer allowance buffer frames)
  | inline (text : String) (column : Nat) : Composed (LineM.inline text column)

variable {α β : Type}

namespace Composed

theorem ite {c : Prop} [Decidable c] {x y : LineM α} (hx : Composed x) (hy : Composed y) :
    Composed (if c then x else y) := by
  split
  · exact hx
  · exact hy

/-- A routine step before others. -/
theorem after {x : LineM β} {f : β → LineM α} [IsLocal x] (hf : ∀ b, Composed (f b)) :
    Composed (x >>= f) := .bind .routine hf

end Composed

/-! ### Files -/

theorem composed_readFile (path : Path) (column : Nat) : Composed (readFile path column) := by
  unfold readFile
  refine .read (fun env env' henv => by rw [henv.library]) fun env => .bind (.noteRead _) fun _ => ?_
  split <;> exact .routine

theorem composed_includeBytes (start : Nat) : Composed (includeBytes start) :=
  .after fun _ => .after fun _ => .after fun _ => .after fun _ => .bind (composed_readFile _ _) fun _ => .routine

theorem Composed.modifyRun {f : Run → Run} (hf : ∀ r meter, f (r.withMeter meter) = (f r).withMeter meter) :
    Composed (modifyRun f) :=
  have : IsLocal (LineM.modifyRun f) := isLocal_modifyRun hf
  .routine

theorem composed_included {m : LineM α} (hm : Composed m) : Composed (included m) :=
  .bind (.modifyRun fun _ _ => rfl) fun _ => .andThen hm fun _ _ => rfl

/-- Gives a file its number in the list of the run. -/
def addFile (path : Path) : LineM Nat := fun _ s =>
  .ok (s.run.addFile path).1 { s with run := (s.run.addFile path).2 }

theorem addFile_withMeter (r : Run) (meter : Meter) (path : Path) :
    (r.withMeter meter).addFile path = ((r.addFile path).1, (r.addFile path).2.withMeter meter) := by
  have hindex : (r.withMeter meter).fileIndex? path = r.fileIndex? path := rfl
  unfold Run.addFile
  rw [hindex]
  cases r.fileIndex? path <;> rfl

instance {path : Path} : IsLocal (addFile path) := by
  refine ⟨fun env env' s meter henv => ?_, fun env s t => by rintro ⟨⟩⟩
  change EStateM.Result.ok ((s.run.withMeter meter).addFile path).1
    { s with run := ((s.run.withMeter meter).addFile path).2 } = _
  rw [addFile_withMeter]
  rfl

theorem composed_includeFile (start : Nat) : Composed (includeFile start) := by
  refine .after fun argument => .after fun name => .after fun _ => .after fun walk => ?_
  have hfile (contents : String) (allowance : Allowance) (path : Path) : Composed (do
      let file ← addFile path
      included (LineM.runBuffer allowance (.ofText file contents 0 walk.buffer.callSite) walk.frames)) :=
    .after fun _ => composed_included (.runBuffer _ _ _)
  refine .ite (.after fun _ => ?_) ?_
  all_goals
    refine .read (fun env env' henv => by rw [henv.allowance]) fun env => ?_
    split
    · exact .routine
    · refine .after fun path => .bind (composed_readFile _ _) fun bytes => ?_
      split
      · exact .routine
      · exact hfile _ _ path

/-! ### Macros and texts -/

/-- Gives a macro call its number in the list of the object code. -/
def addCallSite (site : Origin) : LineM Nat := fun _ s =>
  .ok s.run.code.callSites.size { s with run.code := (s.run.code.pushCallSite site).2 }

instance {site : Origin} : IsLocal (addCallSite site) := ⟨fun _ _ _ _ _ => rfl, fun _ _ _ => by rintro ⟨⟩⟩

theorem composed_expand (m : Macro) (start : Nat) : Composed (expand m start) := by
  have hexpand (env : Setting) : Composed (do
      let walk ← getWalk
      let site ← addCallSite (walk.buffer.origin env.index start)
      LineM.runBuffer env.allowance (.ofText m.definedAt.file m.body (m.definedAt.line + 1) (some site)) walk.frames) :=
    .after fun _ => .after fun _ => .runBuffer _ _ _
  exact .read (fun env env' henv => by rw [henv.index, henv.allowance]) hexpand

theorem composed_macroCall (m : Macro) (start : Nat) : Composed (macroCall m start) := by
  have hcall : Composed (do
      let spot ← spot start
      changeWalk start fun w r => w.openScope r .expansion spot
      let call := do
        bindArguments m.parameters
        expand m start
      call.andThen fun s =>
        { s with
          walk := s.walk.closeExpansion
          nodes := s.nodes.push (.mk .macroCall m.name start s.parts.toList) }) := by
    exact .after fun _ => .after fun _ => .andThen (.after fun _ => composed_expand m start) fun _ _ => rfl
  exact .after fun second => .ite (.after fun position => .bind (.modifyRun fun _ _ => rfl) fun _ => hcall) hcall

theorem composed_asm : Composed asm :=
  .after fun _ => .bind (.andThen (.inline _ _) fun _ _ => rfl) fun _ => .routine

/-! ### Statements -/

theorem composed_perform (d : Directive) (start : Nat) : Composed (perform d start) := by
  cases d
  case includeFile => exact composed_includeFile start
  case includeBytes => exact composed_includeBytes start
  case asm => exact composed_asm
  all_goals
    unfold perform
    exact .routine

theorem composed_directive (spelling : String) (d : Directive) : Composed (directive spelling d) :=
  .after fun _ => .after fun _ => .bind (composed_perform d _) fun _ => .routine

theorem composed_operation : Composed operation := by
  refine .after fun cursor => .getRun (fun _ _ => rfl) fun r => ?_
  dsimp only
  split
  · exact .routine
  · refine .ite (.after fun _ => ?_) ?_
    all_goals
      refine .after fun _ => ?_
      split
      · exact composed_macroCall _ _
      · exact .routine

theorem composed_statement : Composed statement := by
  have hclear : IsLocal (modify fun s => { s with parts := #[] } : LineM Unit) := isLocal_modify fun _ _ => rfl
  refine .after fun _ => .after fun cursor => .after fun walk => .ite .routine ?_
  split
  · exact .ite (.bind (composed_directive _ _) fun _ => .routine) .routine
  · exact .ite (.bind composed_operation fun _ => .routine) .routine

theorem composed_statementsFrom (steps : Nat) : Composed (statementsFrom steps) := by
  induction steps with
  | zero => exact .routine (m := pure ())
  | succ steps ih =>
    exact .after fun _ => .after fun cursor => .ite (.bind composed_statement fun goesOn => .ite ih .routine) .routine

/-- A line is composed of the steps that `Composed` lists. -/
theorem composed_statements : Composed statements := .after fun _ => composed_statementsFrom _

end LineM

/-! ### Time goes on -/

/-- Whether a session may go on from one meter to another, for the same run. -/
structure Meter.Precedes (m m' : Meter) : Prop where
  ticket : m'.ticket = m.ticket
  generation : m.generation ≤ m'.generation

theorem Meter.Precedes.refl (m : Meter) : m.Precedes m := ⟨rfl, Nat.le_refl _⟩

theorem Meter.Precedes.of_eq {m m' : Meter} (h : m' = m) : m.Precedes m' := h ▸ .refl m

theorem Meter.Precedes.trans {m m' m'' : Meter} (h : m.Precedes m') (h' : m'.Precedes m'') : m.Precedes m'' :=
  ⟨h'.ticket.trans h.ticket, Nat.le_trans h.generation h'.generation⟩

/-- Whether the buffers and texts that a line brings in let time go on. -/
structure Setting.KeepsTime (env : Setting) : Prop where
  runBuffer : ∀ allowance buffer frames r r', env.runBuffer allowance buffer frames r = some r' →
    r.meter.Precedes r'.meter
  runText : ∀ text s, LineM.wp (fun env => env.runText text) env s (fun _ t => s.run.meter.Precedes t.run.meter)
    fun _ t => s.run.meter.Precedes t.run.meter

namespace LineM

/-- What does not see the meter does not change it. -/
theorem meter_last {last : LineState → LineState}
    (hlast : ∀ s meter, last (s.withMeter meter) = (last s).withMeter meter) (s : LineState) :
    (last s).run.meter = s.run.meter :=
  congrArg (·.run.meter) (hlast s s.run.meter)

theorem Composed.precedes {α : Type} {env : Setting} (henv : env.KeepsTime) {m : LineM α} (h : Composed m) (s : LineState) :
    wp m env s (fun _ t => s.run.meter.Precedes t.run.meter) fun _ t => s.run.meter.Precedes t.run.meter := by
  induction h generalizing s with
  | @routine _ _ h => exact wp_mono h.meter_eq (fun _ _ => .of_eq) fun _ _ => .of_eq
  | bind _ _ ihx ihf =>
    rw [wp_bind]
    refine wp_imp (ihx s) fun b t ht => ?_
    exact wp_mono (ihf b t) (fun _ _ => ht.trans) fun _ _ => ht.trans
  | read _ _ ih => exact ih env s
  | getRun _ _ ih => exact ih s.run s
  | andThen _ hlast ih =>
    rw [wp_andThen]
    exact wp_mono (ih s) (fun _ t ht => ht.trans (.of_eq (meter_last hlast t)))
      fun _ t ht => ht.trans (.of_eq (meter_last hlast t))
  | noteRead interruptions => exact ⟨rfl, Nat.le_add_right _ _⟩
  | runBuffer allowance buffer frames =>
    unfold wp LineM.runBuffer
    dsimp only
    cases hrun : env.runBuffer allowance buffer frames s.run with
    | none => exact .refl _
    | some r => exact henv.runBuffer _ _ _ _ _ hrun
  | inline text column =>
    unfold wp LineM.inline
    rcases hrun : env.runText text s with ⟨node, t⟩ | ⟨_ | _, t⟩
    · exact of_wp_ok (henv.runText text s) hrun
    · exact of_wp_error (henv.runText text s) hrun
    · exact of_wp_error (henv.runText text s) hrun

end LineM
end Asm6502
