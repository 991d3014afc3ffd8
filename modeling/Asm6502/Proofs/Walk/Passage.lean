/-
# What lines and walks come to

A line executes its statements one after the other, and a walk its lines. So a relation
between runs that every deed of a statement keeps up is kept up by lines, walks and
passes. Lines that are brought in and texts count: while deeds are looked at, they may be
taken to keep it up already.

Key definitions: `lineSetting`, `Walk.entering`, `Setting.Relates`, `Run.IsClosing`,
`Run.IsPassage`.
Key theorems: `Run.IsPassage.statements`, `Run.IsPassage.lineSetting`,
`Run.IsPassage.walk`.
-/
import Asm6502.Assembly
import Asm6502.Proofs.Statement.Acts

namespace Asm6502

/-! ### The setting of a line -/

section
variable {library : Library} {runBuffer : BufferRunner} {includes index evals : Nat}

/-- The setting in which a line is executed, where texts may be nested as deep as
the last argument. -/
def lineSetting (library : Library) (runBuffer : BufferRunner) (includes index evals : Nat) : Setting where
  library
  allowance := ⟨includes, evals⟩
  index
  runBuffer
  runText :=
    match evals with
    | 0 => fun _ => throw (.problem ⟨.tooManyEvals, 0⟩)
    | evals + 1 => runTextWith (runLine library runBuffer includes index evals)

theorem runLine_eq (evals : Nat) :
    runLine library runBuffer includes index evals =
      LineM.statements (lineSetting library runBuffer includes index evals) := by
  cases evals <;> rfl

/-- A text is executed with one `EVAL` or `ASM` less to nest. -/
theorem runText_lineSetting (text : String) :
    (lineSetting library runBuffer includes index (evals + 1)).runText text =
      runTextWith (LineM.statements (lineSetting library runBuffer includes index evals)) text := by
  rw [← runLine_eq]
  rfl

/-- A text leaves the line where it is. -/
theorem cursor_runText {text : String} {s t : LineState} {node : Node}
    (h : (lineSetting library runBuffer includes index evals).runText text s = .ok node t) : t.cursor = s.cursor := by
  cases evals with
  | zero => cases h
  | succ evals =>
    rw [runText_lineSetting, runTextWith] at h
    split at h
    · cases h
      rfl
    · cases h

/-- What holds after the statements of a text holds after the text. -/
theorem wp_runText {text : String} {s : LineState} (Q : Walk → Run → Prop) (E : Stop → Walk → Run → Prop)
    (h : LineM.wp LineM.statements (lineSetting library runBuffer includes index evals)
      ⟨.ofText text, #[], #[], s.walk, s.run⟩ (fun _ t => Q t.walk t.run) fun stop t => E stop t.walk t.run) :
    LineM.wp (fun env => env.runText text) (lineSetting library runBuffer includes index (evals + 1)) s
      (fun _ t => Q t.walk t.run) fun stop t => E stop t.walk t.run := by
  unfold LineM.wp
  dsimp only
  rw [runText_lineSetting, runTextWith]
  cases hrun : LineM.statements (lineSetting library runBuffer includes index evals)
    ⟨.ofText text, #[], #[], s.walk, s.run⟩ with
  | ok _ t =>
    have hQ : Q t.walk t.run := LineM.of_wp_ok h hrun
    exact hQ
  | error stop t =>
    have hE : E stop t.walk t.run := LineM.of_wp_error h hrun
    exact hE

/-- The state in which the next line of a walk is executed. -/
def Walk.entering (w : Walk) (r : Run) (line : String) : LineState :=
  ⟨.ofColumn line w.resumeColumn, #[], #[], w.enter w.next, r⟩

/-- A line is left where its statements end or stop, with or without a problem. -/
theorem Walk.exists_leave {allowance : Allowance} {w w' : Walk} {r r' : Run} {line : String}
    (h : w.stepLine library runBuffer allowance r line = some (w', r')) : ∃ problem,
      Walk.leave w.next line (w.recordsTree r) problem (LineM.stateOf (LineM.statements
        (lineSetting library runBuffer allowance.includes w.next allowance.evals) (w.entering r line))) = (w', r') := by
  simp only [Walk.stepLine, runLine_eq] at h
  rw [Walk.entering]
  split at h
  · rename_i t hrun
    exact ⟨none, hrun ▸ Option.some.inj h⟩
  · rename_i p t hrun
    exact ⟨some p, hrun ▸ Option.some.inj h⟩
  · cases h

end

/-! ### Relations -/

/-- Whether what lines and texts come to is related to what they begin with. -/
structure Setting.Relates (env : Setting) (R : Run → Run → Prop) : Prop where
  answer : ∀ x r, env.answer x = some r → R x.run r
  text : ∀ text s, R s.run (LineM.stateOf (env.runText text s)).run

namespace Run

/-- Whether a relation is kept up by what is done to a run where lines and walks end. -/
structure IsClosing (R : Run → Run → Prop) : Prop where
  refl : ∀ r, R r r
  trans : ∀ {r r' r''}, R r r' → R r' r'' → R r r''
  report : ∀ r file diagnostic, R r (r.report file diagnostic)
  recordTree : ∀ r file line tree, R r (r.recordTree file line tree)

/-- Whether a relation is kept up by all that is done to a run. -/
structure IsPassage (R : Run → Run → Prop) : Prop extends IsClosing R where
  deed : ∀ {env : Setting} {on : Region} {may : Doing → Prop} {x y : Walk × Run}, env.Relates R →
    Deed env on may x y → R x.2 y.2

variable {R : Run → Run → Prop} {library : Library} {env : Setting} {on : Region} {may : Doing → Prop}

theorem IsPassage.deeds (h : IsPassage R) (henv : env.Relates R) {s t : LineState} (hdeeds : s.Deeds env on may t) : R s.run t.run :=
  hdeeds.relates (R := fun x y => R x.2 y.2) (fun _ => h.refl _) (fun _ _ _ => h.trans) fun _ _ => h.deed henv

theorem IsPassage.statement (h : IsPassage R) (henv : env.Relates R) (s : LineState) :
    LineM.wp LineM.statement env s (fun _ t => R s.run t.run) fun _ t => R s.run t.run :=
  LineM.wp_mono LineM.deeds_statement (fun _ _ ht => h.deeds henv ht) fun _ _ ht => h.deeds henv ht

theorem IsPassage.statements (h : IsPassage R) (henv : env.Relates R) (s : LineState) :
    LineM.wp LineM.statements env s (fun _ t => R s.run t.run) fun _ t => R s.run t.run :=
  LineM.wp_mono LineM.deeds_statements (fun _ _ ht => h.deeds henv ht) fun _ _ ht => h.deeds henv ht

theorem IsPassage.lineSetting (h : IsPassage R) {runBuffer : BufferRunner} {includes index : Nat}
    (hrunner : ∀ allowance buffer frames r r', runBuffer allowance buffer frames r = some r' → R r r') (evals : Nat) :
    (lineSetting library runBuffer includes index evals).Relates R := by
  induction evals with
  | zero => exact ⟨fun _ _ hx => hrunner _ _ _ _ _ hx, fun _ _ => h.refl _⟩
  | succ evals ih =>
    refine ⟨fun _ _ hx => hrunner _ _ _ _ _ hx, fun text s => ?_⟩
    exact LineM.wp_stateOf (P := fun t => R s.run t.run) (wp_runText (fun _ r => R s.run r) (fun _ _ r => R s.run r)
      (h.statements ih ⟨.ofText text, #[], #[], s.walk, s.run⟩))

theorem IsClosing.leave (h : IsClosing R) (index : Nat) (line : String) (record : Bool) (problem : Option Problem)
    (s : LineState) : R s.run (Walk.leave index line record problem s).2 := by
  have hreport : R s.run (problem.elim s.run fun p => s.walk.reportAt s.run ⟨index, p.column⟩ p.fault) := by
    cases problem with
    | none => exact h.refl _
    | some p => exact h.report _ _ _
  unfold Walk.leave
  cases problem <;> cases record
  · exact hreport
  · exact h.trans hreport (h.recordTree _ _ _ _)
  · exact hreport
  · exact h.trans hreport (h.recordTree _ _ _ _)

theorem IsClosing.finish (h : IsClosing R) (w : Walk) (r : Run) : R r (w.finish r).2 := by
  have hfold {α : Type} {f : Run → α → Run} (hf : ∀ r a, R r (f r a)) (as : List α) (r : Run) : R r (as.foldl f r) := by
    induction as generalizing r with
    | nil => exact h.refl r
    | cons a as ih => exact h.trans (hf r a) (ih _)
  refine h.trans (hfold (fun r c => h.report _ _ _) w.conditionals.reverse r) (hfold (fun r f => ?_) w.own _)
  split
  · exact h.report _ _ _
  · exact h.refl r

/-- **What every deed keeps up, a walk keeps up** to the end of its buffer. -/
theorem IsPassage.walk (h : IsPassage R) (bound : Nat) (allowance : Allowance) (w w' : Walk) (r r' : Run)
    (hwalk : Asm6502.walk library bound allowance w r = some (w', r')) : R r r' := by
  induction bound generalizing allowance w w' r r' with
  | zero => cases hwalk
  | succ bound ih =>
    unfold Asm6502.walk at hwalk
    split at hwalk
    · cases hwalk
      exact h.finish w r
    · split_ifs at hwalk
      · cases hwalk
        exact h.refl r
      · dsimp only at hwalk
        split at hwalk
        · cases hwalk
        · rename_i w₁ r₁ hstep
          refine h.trans ?_ (ih allowance _ _ _ _ hwalk)
          obtain ⟨problem, hleave⟩ := Walk.exists_leave hstep
          obtain ⟨rfl, rfl⟩ := Prod.mk.inj hleave
          refine h.trans (LineM.wp_stateOf (P := fun t => R r t.run) (h.statements (h.lineSetting ?_ _) _))
            (h.leave _ _ _ _ _)
          intro allowance buffer frames r r' hrun
          obtain ⟨⟨w', r''⟩, hwalk, rfl⟩ := Option.map_eq_some_iff.mp hrun
          exact ih allowance _ _ _ _ hwalk

theorem IsPassage.runBufferWithin (h : IsPassage R) {bound : Nat} (allowance : Allowance) (buffer : Buffer)
    (frames : List Frame) (r r' : Run) (hrun : runBufferWithin library bound allowance buffer frames r = some r') :
    R r r' := by
  obtain ⟨⟨w', r''⟩, hwalk, rfl⟩ := Option.map_eq_some_iff.mp hrun
  exact h.walk bound _ _ _ _ _ hwalk

theorem IsPassage.runPass (h : IsPassage R) {bound file : Nat} {text : String} {pass : Pass} {r r' : Run}
    (hrun : runPass library bound file text pass r = some r') : R (r.beginPass pass) r' :=
  h.runBufferWithin _ _ _ _ _ hrun

end Run
end Asm6502
