/-
# Macros after the first pass

Macros are defined in the first pass. A later one goes over their definitions again
and captures nothing, so whatever it executes it ends with the macros that it began
with: none is added, none is changed and none is taken away. Only the places where
they are called are noted.

Key definitions: `Run.HasMacros`, `Walk.IsSettled`, `Setting.Retains`.
Key theorems: `Deed.isSettled`, `hasMacros_walk`, `Stage.Advances.isSettled`.
-/
import Asm6502.Proofs.Walk.Skipping
import Asm6502.Proofs.Walk.Straight

namespace Asm6502

/-- Whether a run is in a pass after the first and has the macros of a table. -/
structure Run.HasMacros (known : MacroTable) (r : Run) : Prop where
  pass : r.pass ≠ .first
  macros : ∀ name, r.macros.get? name = known.get? name

/-- Whether a walk in such a run captures no macro. -/
structure Walk.IsSettled (known : MacroTable) (w : Walk) (r : Run) : Prop where
  run : r.HasMacros known
  capture : w.capture = none

/-- What is to be known of the buffers and texts that a line brings in. -/
structure Setting.Retains (env : Setting) : Prop where
  answer : ∀ known (x : Call) r, x.run.HasMacros known → env.answer x = some r → r.HasMacros known
  text : ∀ known text (s : LineState), s.walk.IsSettled known s.run →
    (LineM.stateOf (env.runText text s)).walk.IsSettled known (LineM.stateOf (env.runText text s)).run

variable {known : MacroTable}

theorem Run.HasMacros.of_eq {r r' : Run} (h : r.HasMacros known) (hpass : r'.pass = r.pass)
    (hmacros : r'.macros = r.macros) : r'.HasMacros known :=
  ⟨hpass ▸ h.pass, hmacros ▸ h.macros⟩

theorem Run.HasMacros.follows {r r' : Run} {frames : List Frame} (h : r.HasMacros known) (hf : r.Follows frames r') :
    r'.HasMacros known :=
  ⟨hf.pass ▸ h.pass, fun name => (hf.macros name).trans (h.macros name)⟩

theorem Walk.IsSettled.of_eq {w w' : Walk} {r r' : Run} (h : w.IsSettled known r) (hcapture : w'.capture = w.capture)
    (hpass : r'.pass = r.pass) (hmacros : r'.macros = r.macros) : w'.IsSettled known r' :=
  ⟨h.run.of_eq hpass hmacros, hcapture.trans h.capture⟩

theorem Run.HasMacros.inFile {r : Run} (h : r.HasMacros known) (path : Path) : (r.inFile path).HasMacros known := by
  rw [Run.inFile, Run.addFile_eq]
  exact h.of_eq rfl rfl

/-! ### Statements -/

section
variable {env : Setting}

/-- Whatever is done in a later pass, it leaves the macros alone: a definition is not
captured, and there is nothing to define when it ends. -/
theorem Deed.isSettled {on : Region} {may : Doing → Prop} {x y : Walk × Run} (h : Deed env on may x y)
    (henv : env.Retains) (hx : x.1.IsSettled known x.2) : y.1.IsSettled known y.2 := by
  cases h with
  | opened _ hopen =>
    obtain ⟨rfl, rfl⟩ := Walk.eq_of_openScope hopen
    exact hx.of_eq rfl rfl rfl
  | looped _ _ _ _ _ hstart =>
    obtain ⟨rfl, rfl⟩ := Walk.eq_of_startLoop hstart
    exact hx.of_eq rfl rfl rfl
  | stepped _ hstep =>
    obtain ⟨f, own, l, -, -, ⟨rfl, rfl⟩ | ⟨l', -, rfl, rfl⟩⟩ := Walk.eq_of_stepLoop hstep
    · exact hx.of_eq rfl rfl rfl
    · exact hx.of_eq rfl rfl rfl
  | @begun w w' r definition column hmay hdefinition hstart =>
    obtain rfl : definition = none := by
      cases definition with
      | none => rfl
      | some m => exact absurd (hdefinition m rfl).1 hx.run.pass
    rw [Walk.frame_of_startMacro hstart]
    exact ⟨hx.run, rfl⟩
  | @ended w w' r definition hmay hend =>
    unfold Walk.endMacro at hend
    split at hend
    · split_ifs at hend
      cases hend
      rw [hx.capture]
      exact ⟨hx.run.of_eq rfl rfl, rfl⟩
    · cases hend
  | referenced hmay name p =>
    refine ⟨⟨hx.run.pass, fun other => ?_⟩, hx.capture⟩
    exact (MacroTable.get?_addReference _ _ _ _).trans (hx.run.macros other)
  | ran hmay hcall hrun =>
    cases hcall with
    | intro => exact ⟨henv.answer known _ _ hx.run hrun, hx.capture⟩
  | added path =>
    rw [Run.addFile_eq]
    exact hx.of_eq rfl rfl rfl
  | @included w r r' x hmay hcall hrun =>
    cases hcall with
    | intro =>
      have hkept : r'.HasMacros known := henv.answer known _ _ (hx.run.inFile _) hrun
      exact ⟨hkept.of_eq rfl rfl, hx.capture⟩
  | @inlined s _ _ text =>
    have htext := henv.text known text s.inText (hx.of_eq rfl rfl rfl)
    exact htext.of_eq rfl rfl rfl
  | _ => exact hx.of_eq rfl rfl rfl

theorem LineState.Deeds.isSettled {on : Region} {may : Doing → Prop} {s t : LineState} (h : s.Deeds env on may t)
    (henv : env.Retains) (hs : s.walk.IsSettled known s.run) : t.walk.IsSettled known t.run :=
  h.keeps (fun _ _ hdeed hx => hdeed.isSettled henv hx) hs

theorem LineM.isSettled_statements {s : LineState} (henv : env.Retains) (hs : s.walk.IsSettled known s.run) :
    wp statements env s (fun _ t => t.walk.IsSettled known t.run) fun _ t => t.walk.IsSettled known t.run :=
  wp_mono deeds_statements (fun _ _ ht => ht.isSettled henv hs) fun _ _ ht => ht.isSettled henv hs

end

/-! ### Lines and walks -/

variable {library : Library}

theorem Setting.retains_lineSetting {runBuffer : BufferRunner} {includes index : Nat}
    (hrunner : ∀ known allowance buffer frames r r', r.HasMacros known →
      runBuffer allowance buffer frames r = some r' → r'.HasMacros known) (evals : Nat) :
    (lineSetting library runBuffer includes index evals).Retains := by
  induction evals with
  | zero => exact ⟨fun _ _ _ hr hrun => hrunner _ _ _ _ _ _ hr hrun, fun _ _ _ hs => hs⟩
  | succ evals ih =>
    refine ⟨fun _ _ _ hr hrun => hrunner _ _ _ _ _ _ hr hrun, fun known text s hs => ?_⟩
    exact LineM.wp_stateOf (P := fun t => t.walk.IsSettled known t.run) (wp_runText (fun w r => w.IsSettled known r)
      (fun _ w r => w.IsSettled known r) (LineM.isSettled_statements ih hs))

/-- Leaving a line captures nothing by itself. -/
theorem Walk.isSettled_leave {s : LineState} (h : s.walk.IsSettled known s.run) (index : Nat) (line : String)
    (record : Bool) (problem : Option Problem) :
    (leave index line record problem s).1.IsSettled known (leave index line record problem s).2 := by
  refine ⟨h.run.follows (follows_leave index line record problem s.walk.frames s), ?_⟩
  change (s.walk.captureLine index line).capture = none
  rw [Walk.captureLine, h.capture]
  exact h.capture

/-- **A walk in a later pass ends with the macros that it began with.** -/
theorem hasMacros_walk (bound : Nat) (known : MacroTable) (allowance : Allowance) (w w' : Walk) (r r' : Run)
    (hr : w.IsSettled known r) (h : walk library bound allowance w r = some (w', r')) : r'.HasMacros known := by
  induction bound generalizing known allowance w w' r r' with
  | zero => cases h
  | succ bound ih =>
    unfold walk at h
    split at h
    · cases h
      exact hr.run.follows (w.follows_finish w.frames r)
    rename_i line hline
    split_ifs at h
    · cases h
      exact hr.run
    dsimp only at h
    split at h
    · cases h
    rename_i w₁ r₁ hstep
    refine ih known allowance _ _ _ _ ?_ h
    obtain ⟨problem, hleave⟩ := Walk.exists_leave hstep
    obtain ⟨rfl, rfl⟩ := Prod.mk.inj hleave
    refine Walk.isSettled_leave (LineM.wp_stateOf (P := fun t => t.walk.IsSettled known t.run)
      (LineM.isSettled_statements (Setting.retains_lineSetting ?_ _) (hr.of_eq rfl rfl rfl))) _ _ _ _
    intro known allowance buffer frames r r' hr hrun
    obtain ⟨⟨w', r''⟩, hwalk, rfl⟩ := Option.map_eq_some_iff.mp hrun
    exact ih known allowance _ _ _ _ ⟨hr, rfl⟩ hwalk

theorem Setting.retains_ofLine {allowance : Allowance} {bound index : Nat} :
    (Setting.ofLine library allowance bound index).Retains := by
  refine retains_lineSetting (fun known allowance buffer frames r r' hr hrun => ?_) _
  obtain ⟨⟨w', r''⟩, hwalk, rfl⟩ := Option.map_eq_some_iff.mp hrun
  exact hasMacros_walk bound known allowance _ _ _ _ ⟨hr, rfl⟩ hwalk

namespace Stage

variable {allowance : Allowance} {p q : Stage}

theorem isSettled_left {bound index : Nat} {line : String} {record : Bool} {problem : Option Problem} {s : LineState}
    (h : s.walk.IsSettled known s.run) : (left bound index line record problem s).walk.IsSettled known
      (left bound index line record problem s).run := Walk.isSettled_leave h index line record problem

/-- **At every stage of a walk in a later pass the macros are those that it began
with.** -/
theorem Advances.isSettled (h : Advances library allowance p q) (hp : p.walk.IsSettled known p.run) :
    q.walk.IsSettled known q.run := by
  have hstatement {bound index : Nat} {s : LineState} (hs : s.walk.IsSettled known s.run) :
      LineM.wp LineM.statement (.ofLine library allowance bound index) { s with cursor := s.cursor.skipBlanks }
        (fun _ t => t.walk.IsSettled known t.run) fun _ t => t.walk.IsSettled known t.run :=
    LineM.wp_mono LineM.deeds_statement (fun _ _ ht => ht.isSettled Setting.retains_ofLine hs)
      fun _ _ ht => ht.isSettled Setting.retains_ofLine hs
  cases h with
  | enters => exact hp.of_eq rfl rfl rfl
  | executes _ hrun => exact LineM.of_wp_ok (hstatement hp) hrun
  | rewinds _ hrun =>
    have ht := LineM.of_wp_ok (hstatement hp) hrun
    exact isSettled_left ht
  | ends => exact isSettled_left (hp.of_eq rfl rfl rfl)
  | fails _ hrun => exact isSettled_left (LineM.of_wp_error (hstatement hp) hrun)

end Stage
end Asm6502
