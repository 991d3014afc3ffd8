/-
# Runs that are overtaken

A run with a ticket of its session may be overtaken whenever it reads a file.
From then on its walks stop before their next line, at whatever depth they are,
while the statements that brought them in go on to the end of their lines. What
such a run has made by then is worth nothing, and it is never handed out.

Up to there the run does the same as one that nothing can overtake: this is shown
step by step (`Paces`), for statements, for lines and for walks.

Key definitions: `Run.Holds`, `Run.IsOvertaken`, `Run.freed`, `LineM.Paces`,
`Setting.Paces`.
Key theorems: `LineM.Composed.stops`, `LineM.Composed.paces`, `paces_walk`,
`paces_runPass`.
-/
import Asm6502.Proofs.Statement.Composed
import Asm6502.Proofs.Walk.Stage

namespace Asm6502

variable {library : Library}

/-! ### Time goes on -/

theorem Walk.stepLine_eq {runBuffer : BufferRunner} {allowance : Allowance} {w : Walk} {r : Run} {line : String} :
    w.stepLine library runBuffer allowance r line =
      match LineM.statements (lineSetting library runBuffer allowance.includes w.next allowance.evals)
        (w.entering r line) with
      | .ok _ t => some (leave w.next line (w.recordsTree r) none t)
      | .error (.problem p) t => some (leave w.next line (w.recordsTree r) (some p) t)
      | .error .exhausted _ => none := by
  rw [stepLine, runLine_eq]
  rfl

theorem Setting.keepsTime_lineSetting {runBuffer : BufferRunner} {includes index : Nat}
    (hrunner : ∀ allowance buffer frames r r', runBuffer allowance buffer frames r = some r' →
      r.meter.Precedes r'.meter) (evals : Nat) :
    (lineSetting library runBuffer includes index evals).KeepsTime := by
  induction evals with
  | zero => exact ⟨hrunner, fun _ _ => .refl _⟩
  | succ evals ih =>
    refine ⟨hrunner, fun text s => ?_⟩
    exact wp_runText (fun _ r => s.run.meter.Precedes r.meter) (fun _ _ r => s.run.meter.Precedes r.meter)
      (LineM.composed_statements.precedes ih _)

/-- Leaving a line takes no time. -/
theorem meter_leave (index : Nat) (line : String) (record : Bool) (problem : Option Problem) (s : LineState) :
    (Walk.leave index line record problem s).2.meter = s.run.meter := by
  unfold Walk.leave
  cases problem <;> cases record <;> rfl

theorem meter_foldl {α : Type} {f : Run → α → Run} (hf : ∀ r a, (f r a).meter = r.meter) (as : List α) (r : Run) :
    (as.foldl f r).meter = r.meter := by
  induction as generalizing r with
  | nil => rfl
  | cons a as ih => exact (ih _).trans (hf r a)

theorem meter_finish (w : Walk) (r : Run) : (w.finish r).2.meter = r.meter := by
  refine (meter_foldl (fun r f => ?_) _ _).trans (meter_foldl (fun r c => ?_) _ r)
  · split <;> rfl
  · rfl

/-- What holds of the meter after the statements of a line holds after the line. -/
theorem meter_stepLine {runBuffer : BufferRunner} {allowance : Allowance} {w w' : Walk} {r r' : Run} {line : String}
    (Q : Meter → Prop)
    (h : LineM.wp LineM.statements (lineSetting library runBuffer allowance.includes w.next allowance.evals)
      (w.entering r line) (fun _ t => Q t.run.meter) fun stop t => stop = .exhausted ∨ Q t.run.meter)
    (hstep : w.stepLine library runBuffer allowance r line = some (w', r')) : Q r'.meter := by
  have hleave (problem : Option Problem) (t : LineState) (ht : Q t.run.meter)
      (hleft : some (Walk.leave w.next line (w.recordsTree r) problem t) = some (w', r')) : Q r'.meter := by
    obtain ⟨-, rfl⟩ := Prod.mk.inj (Option.some.inj hleft)
    have hmeter := meter_leave w.next line (w.recordsTree r) problem t
    exact hmeter ▸ ht
  rw [Walk.stepLine_eq] at hstep
  split at hstep
  · rename_i t hrun
    exact hleave none t (LineM.of_wp_ok h hrun) hstep
  · rename_i p t hrun
    exact hleave (some p) t ((LineM.of_wp_error h hrun).resolve_left (by rintro ⟨⟩)) hstep
  · cases hstep

theorem precedes_stepLine {runBuffer : BufferRunner} {allowance : Allowance} {w w' : Walk} {r r' : Run} {line : String}
    (hrunner : ∀ allowance buffer frames r r', runBuffer allowance buffer frames r = some r' →
      r.meter.Precedes r'.meter)
    (hstep : w.stepLine library runBuffer allowance r line = some (w', r')) : r.meter.Precedes r'.meter := by
  have henv : (lineSetting library runBuffer allowance.includes w.next allowance.evals).KeepsTime :=
    Setting.keepsTime_lineSetting hrunner allowance.evals
  have hstatements := LineM.composed_statements.precedes henv (w.entering r line)
  exact meter_stepLine r.meter.Precedes (LineM.wp_mono hstatements (fun _ _ => id) fun _ _ => .inr) hstep

theorem precedes_walk (bound : Nat) (allowance : Allowance) (w w' : Walk) (r r' : Run)
    (h : walk library bound allowance w r = some (w', r')) : r.meter.Precedes r'.meter := by
  induction bound generalizing allowance w w' r r' with
  | zero => cases h
  | succ bound ih =>
    unfold walk at h
    split at h
    · cases h
      exact .of_eq (meter_finish w r)
    · split_ifs at h
      · cases h
        exact .refl _
      · dsimp only at h
        split at h
        · cases h
        · rename_i w₁ r₁ hstep
          refine (precedes_stepLine ?_ hstep).trans (ih allowance _ _ _ _ h)
          intro allowance buffer frames r r' hrun
          obtain ⟨⟨w', r''⟩, hwalk, rfl⟩ := Option.map_eq_some_iff.mp hrun
          exact ih allowance _ _ _ _ hwalk

theorem precedes_runBufferWithin {bound : Nat} (allowance : Allowance) (buffer : Buffer) (frames : List Frame)
    (r r' : Run) (h : runBufferWithin library bound allowance buffer frames r = some r') :
    r.meter.Precedes r'.meter := by
  obtain ⟨⟨w', r''⟩, hwalk, rfl⟩ := Option.map_eq_some_iff.mp h
  exact precedes_walk bound _ _ _ _ _ hwalk

/-! ### After the run is overtaken -/

/-- Whether a run has a ticket of its session. -/
structure Run.Holds (k : Nat) (r : Run) : Prop where
  ticket : r.ticket = .issued k
  generation : k ≤ r.generation

/-- Whether a run with a ticket of its session is overtaken. -/
structure Run.IsOvertaken (k : Nat) (r : Run) : Prop where
  ticket : r.ticket = .issued k
  generation : k < r.generation

section
variable {k : Nat} {r r' : Run}

theorem Run.IsOvertaken.of_precedes (h : r.IsOvertaken k) (htime : r.meter.Precedes r'.meter) : r'.IsOvertaken k :=
  ⟨htime.ticket.trans h.ticket, Nat.lt_of_lt_of_le h.generation htime.generation⟩

theorem Run.Holds.of_precedes (h : r.Holds k) (htime : r.meter.Precedes r'.meter) : r'.Holds k :=
  ⟨htime.ticket.trans h.ticket, Nat.le_trans h.generation htime.generation⟩

theorem Run.Holds.isCancelled_iff (h : r.Holds k) : r.isCancelled = true ↔ r.IsOvertaken k := by
  have hle := h.generation
  rw [Run.isCancelled, h.ticket, Ticket.isCancelled, bne_iff_ne]
  exact ⟨fun hne => ⟨h.ticket, by omega⟩, fun hover => Nat.ne_of_gt hover.generation⟩

theorem Run.IsOvertaken.holds (h : r.IsOvertaken k) : r.Holds k := ⟨h.ticket, Nat.le_of_lt h.generation⟩

theorem Run.IsOvertaken.isCancelled (h : r.IsOvertaken k) : r.isCancelled = true := h.holds.isCancelled_iff.mpr h

/-- What a step comes to in a run that is overtaken by then: it does not run
beyond the bound on lines. -/
def LineM.Stops {α : Type} (k : Nat) (m : LineM α) (env : Setting) (s : LineState) : Prop :=
  wp m env s (fun _ t => t.run.IsOvertaken k) fun stop t => stop ≠ .exhausted ∧ t.run.IsOvertaken k

/-- Whether the buffers and texts that a line brings in come to an end in a run
that is overtaken. -/
structure Setting.Stops (k : Nat) (env : Setting) : Prop where
  runBuffer : ∀ allowance buffer frames r, r.IsOvertaken k →
    ∃ r', env.runBuffer allowance buffer frames r = some r' ∧ r'.IsOvertaken k
  runText : ∀ text s, s.run.IsOvertaken k → LineM.Stops k (fun env => env.runText text) env s

namespace LineM

variable {α β : Type} {env : Setting} {s : LineState}

theorem Composed.stops (henv : env.Stops k) {m : LineM α} (h : Composed m) (hs : s.run.IsOvertaken k) :
    Stops k m env s := by
  induction h generalizing s with
  | @routine _ _ h =>
    have hovertaken (t : LineState) (ht : t.run.meter = s.run.meter) : t.run.IsOvertaken k :=
      hs.of_precedes (.of_eq ht)
    unfold Stops wp
    rename_i m
    have hmeter : wp m env s (fun _ t => t.run.meter = s.run.meter) fun _ t => t.run.meter = s.run.meter :=
      h.meter_eq
    cases hrun : m env s with
    | ok a t => exact hovertaken t (of_wp_ok hmeter hrun)
    | error stop t =>
      refine ⟨?_, hovertaken t (of_wp_error hmeter hrun)⟩
      rintro rfl
      exact h.ne_exhausted env s t hrun
  | bind _ _ ihx ihf =>
    rw [Stops, wp_bind]
    exact wp_imp (ihx hs) fun b t ht => ihf b ht
  | read _ _ ih => exact ih env hs
  | getRun _ _ ih => exact ih s.run hs
  | andThen _ hlast ih =>
    rw [Stops, wp_andThen]
    exact wp_mono (ih hs) (fun _ t ht => ht.of_precedes (.of_eq (meter_last hlast t)))
      fun _ t ht => ⟨ht.1, ht.2.of_precedes (.of_eq (meter_last hlast t))⟩
  | noteRead interruptions => exact hs.of_precedes ⟨rfl, Nat.le_add_right _ _⟩
  | runBuffer allowance buffer frames =>
    obtain ⟨r, hrun, hr⟩ := henv.runBuffer allowance buffer frames s.run hs
    unfold Stops wp LineM.runBuffer
    dsimp only
    rw [hrun]
    exact hr
  | inline text column =>
    have htext := henv.runText text s hs
    unfold Stops wp LineM.inline
    rcases hrun : env.runText text s with ⟨node, t⟩ | ⟨_ | _, t⟩
    · exact of_wp_ok htext hrun
    · exact ⟨by rintro ⟨⟩, (of_wp_error htext hrun).2⟩
    · exact of_wp_error htext hrun

end LineM

/-- A walk of a run that is overtaken goes no further. -/
theorem walk_of_isOvertaken {bound : Nat} {allowance : Allowance} (w : Walk) (hr : r.IsOvertaken k) :
    ∃ w' r', walk library (bound + 1) allowance w r = some (w', r') ∧ r'.IsOvertaken k := by
  unfold walk
  split
  · exact ⟨_, _, rfl, hr.of_precedes (.of_eq (meter_finish w r))⟩
  · rw [if_pos hr.isCancelled]
    exact ⟨w, r, rfl, hr⟩

theorem Setting.Stops.succ {runBuffer : BufferRunner} {includes index evals : Nat}
    (h : (lineSetting library runBuffer includes index evals).Stops k) :
    (lineSetting library runBuffer includes index (evals + 1)).Stops k := by
  refine ⟨h.runBuffer, fun text s hs => ?_⟩
  exact wp_runText (fun _ r => r.IsOvertaken k) (fun stop _ r => stop ≠ .exhausted ∧ r.IsOvertaken k)
    (LineM.composed_statements.stops h hs)

/-- Within one line at least, the buffers that a line brings in come to an end. -/
theorem Setting.stops_lineSetting {includes index bound : Nat} (evals : Nat) :
    (lineSetting library (runBufferWithin library (bound + 1)) includes index evals).Stops k := by
  induction evals with
  | zero =>
    refine ⟨fun allowance buffer frames r hr => ?_, fun text s hs => ⟨by rintro ⟨⟩, hs⟩⟩
    obtain ⟨w', r', hwalk, hr'⟩ := walk_of_isOvertaken (.start buffer frames) hr
    exact ⟨r', Option.map_eq_some_iff.mpr ⟨_, hwalk, rfl⟩, hr'⟩
  | succ evals ih => exact ih.succ

/-! ### Until the run is overtaken -/

/-- The run as if nothing could overtake it. -/
def Run.freed (r : Run) : Run := { r with ticket := .never }

/-- A line of the run as if nothing could overtake it. -/
def LineState.freed (s : LineState) : LineState := { s with run := s.run.freed }

theorem LineState.freed_eq_withMeter {s t : LineState} (h : t.run.meter = s.run.meter) :
    t.freed = t.withMeter ⟨.never, s.run.generation, s.run.reads⟩ := by
  have hgeneration : t.run.generation = s.run.generation := congrArg Meter.generation h
  have hreads : t.run.reads = s.run.reads := congrArg Meter.reads h
  rw [← hgeneration, ← hreads]
  rfl

namespace LineM

/-- Where a run that is overtaken and one that cannot be no longer do the same. -/
structure Parts {α : Type} (k : Nat) (m : LineM α) (env : Setting) (s : LineState) : Prop where
  setting : env.Stops k
  stops : Stops k m env s
  late : wp m env s.freed (fun _ t => k < t.run.generation) fun stop t => stop = .exhausted ∨ k < t.run.generation

/-- Whether a step of a run that holds a ticket does the same as in a run that
nothing can overtake, or the run is overtaken meanwhile. -/
def Paces {α : Type} (k : Nat) (m : LineM α) (env : Setting) (s : LineState) : Prop :=
  m env s.freed = mapState LineState.freed (m env s) ∨ Parts k m env s

end LineM

/-- Whether the buffers and texts that a line brings in do the same in both runs,
until one is overtaken. -/
structure Setting.Paces (k : Nat) (env : Setting) : Prop where
  keepsTime : env.KeepsTime
  runBuffer : ∀ allowance buffer frames s, s.run.Holds k →
    LineM.Paces k (LineM.runBuffer allowance buffer frames) env s
  runText : ∀ text s, s.run.Holds k → LineM.Paces k (fun env => env.runText text) env s

namespace LineM

variable {α β : Type} {env : Setting} {s : LineState}

theorem mapState_congr {m : LineM α} {f g : LineState → LineState}
    (h : wp m env s (fun _ t => f t = g t) fun _ t => f t = g t) :
    mapState f (m env s) = mapState g (m env s) := by
  unfold wp at h
  unfold mapState
  cases hrun : m env s <;> rw [hrun] at h <;> exact congrArg _ h

theorem IsLocal.paces {m : LineM α} (h : IsLocal m) : Paces k m env s := by
  left
  have hsame := h.run_eq env env s ⟨.never, s.run.generation, s.run.reads⟩ (.refl env)
  rw [LineState.freed_eq_withMeter rfl, hsame]
  refine mapState_congr (wp_mono h.meter_eq ?_ ?_) <;>
    exact fun _ t ht => (LineState.freed_eq_withMeter ht).symm

/-- Only what a step comes to matters. -/
theorem Paces.of_eq {m m' : LineM α} {t : LineState} (hm : Paces k m env s) (h : m' env t = m env s)
    (h' : m' env t.freed = m env s.freed) : Paces k m' env t := by
  rcases hm with hm | hm
  · left
    rw [h, h', hm]
  · refine .inr ⟨hm.setting, ?_, ?_⟩
    · unfold Stops wp
      rw [h]
      exact hm.stops
    · unfold wp
      rw [h']
      exact hm.late

theorem Paces.bind {x : LineM β} {f : β → LineM α} (henv : env.Paces k) (hs : s.run.Holds k)
    (hcomposed : ∀ b, Composed (f b)) (htime : wp x env s (fun _ t => s.run.meter.Precedes t.run.meter)
      fun _ t => s.run.meter.Precedes t.run.meter)
    (hx : Paces k x env s) (hf : ∀ b t, t.run.Holds k → Paces k (f b) env t) :
    Paces k (x >>= f) env s := by
  rcases hx with hx | hx
  · cases hrun : x env s with
    | error stop t =>
      left
      rw [hrun] at hx
      simp only [Bind.bind, ReaderT.bind, EStateM.bind, hrun, hx, mapState]
    | ok b t =>
      rw [hrun] at hx
      have ht : t.run.Holds k := hs.of_precedes (of_wp_ok htime hrun)
      exact (hf b t ht).of_eq (bind_of_ok hrun) (bind_of_ok hx)
  · refine .inr ⟨hx.setting, ?_, ?_⟩
    · rw [Stops, wp_bind]
      exact wp_imp hx.stops fun b t ht => (hcomposed b).stops hx.setting ht
    · rw [wp_bind]
      refine wp_imp hx.late fun b t ht => ?_
      exact wp_mono ((hcomposed b).precedes henv.keepsTime t) (fun _ u hu => Nat.lt_of_lt_of_le ht hu.generation)
        fun _ u hu => .inr (Nat.lt_of_lt_of_le ht hu.generation)

theorem Paces.andThen {m : LineM α} {last : LineState → LineState}
    (hlast : ∀ s meter, last (s.withMeter meter) = (last s).withMeter meter) (hm : Paces k m env s) :
    Paces k (m.andThen last) env s := by
  have hfreed (t : LineState) : last t.freed = (last t).freed :=
    (hlast t _).trans (LineState.freed_eq_withMeter (meter_last hlast t)).symm
  rcases hm with hm | hm
  · left
    unfold LineM.andThen
    rw [hm]
    cases m env s <;> exact congrArg _ (hfreed _)
  · refine .inr ⟨hm.setting, ?_, ?_⟩
    · rw [Stops, wp_andThen]
      exact wp_mono hm.stops (fun _ t ht => ht.of_precedes (.of_eq (meter_last hlast t)))
        fun _ t ht => ⟨ht.1, ht.2.of_precedes (.of_eq (meter_last hlast t))⟩
    · have hgeneration (t : LineState) : (last t).run.generation = t.run.generation :=
        congrArg Meter.generation (meter_last hlast t)
      rw [wp_andThen]
      exact wp_mono hm.late (fun _ t ht => (hgeneration t).symm ▸ ht) fun _ t ht => (hgeneration t).symm ▸ ht

theorem Paces.inline {text : String} {column : Nat} (h : Paces k (fun env => env.runText text) env s) :
    Paces k (LineM.inline text column) env s := by
  rcases h with h | h
  · left
    unfold LineM.inline
    change env.runText text s.freed = mapState LineState.freed (env.runText text s) at h
    rw [h]
    rcases env.runText text s with ⟨node, t⟩ | ⟨_ | _, t⟩ <;> rfl
  · refine .inr ⟨h.setting, ?_, ?_⟩
    · unfold Stops wp LineM.inline
      rcases hrun : env.runText text s with ⟨node, t⟩ | ⟨_ | _, t⟩
      · exact of_wp_ok h.stops hrun
      · exact ⟨by rintro ⟨⟩, (of_wp_error h.stops hrun).2⟩
      · exact of_wp_error h.stops hrun
    · unfold wp LineM.inline
      rcases hrun : env.runText text s.freed with ⟨node, t⟩ | ⟨_ | _, t⟩
      · exact of_wp_ok h.late hrun
      · exact .inr ((of_wp_error h.late hrun).resolve_left (by rintro ⟨⟩))
      · exact .inl rfl

theorem Composed.paces (henv : env.Paces k) {m : LineM α} (h : Composed m) (hs : s.run.Holds k) :
    Paces k m env s := by
  induction h generalizing s with
  | @routine _ _ h => exact h.paces
  | bind hx hf ihx ihf =>
    exact .bind henv hs hf (hx.precedes henv.keepsTime s) (ihx hs) fun b t ht => ihf b ht
  | read _ _ ih => exact (ih env hs).of_eq rfl rfl
  | getRun hf _ ih => exact (ih s.run hs).of_eq rfl (congrArg (· env s.freed) (hf s.run s.freed.run.meter))
  | andThen _ hlast ih => exact .andThen hlast (ih hs)
  | noteRead interruptions => exact .inl rfl
  | runBuffer allowance buffer frames => exact henv.runBuffer allowance buffer frames s hs
  | inline text column => exact .inline (henv.runText text s hs)

end LineM

/-! ### Lines, walks and passes -/

section
variable {runBuffer : BufferRunner} {includes index : Nat}

/-- What holds of the buffers that a line brings in holds of its texts. -/
theorem Setting.paces_lineSetting
    (htime : ∀ allowance buffer frames r r', runBuffer allowance buffer frames r = some r' →
      r.meter.Precedes r'.meter)
    (hrunner : ∀ evals allowance buffer frames s, s.run.Holds k → LineM.Paces k
      (LineM.runBuffer allowance buffer frames) (lineSetting library runBuffer includes index evals) s)
    (evals : Nat) : (lineSetting library runBuffer includes index evals).Paces k := by
  induction evals with
  | zero => exact ⟨keepsTime_lineSetting htime 0, hrunner 0, fun _ _ _ => .inl rfl⟩
  | succ evals ih =>
    refine ⟨keepsTime_lineSetting htime _, hrunner _, fun text s hs => ?_⟩
    have hinner := LineM.composed_statements.paces ih (s := ⟨.ofText text, #[], #[], s.walk, s.run⟩) hs
    rcases hinner with hagree | hparts
    · left
      dsimp only
      have hfreed : (⟨.ofText text, #[], #[], s.freed.walk, s.freed.run⟩ : LineState) =
          LineState.freed ⟨.ofText text, #[], #[], s.walk, s.run⟩ := rfl
      rw [runText_lineSetting, runTextWith, runTextWith, hfreed, hagree]
      cases LineM.statements (lineSetting library runBuffer includes index evals)
        ⟨.ofText text, #[], #[], s.walk, s.run⟩ <;> rfl
    · refine .inr ⟨hparts.setting.succ, ?_, ?_⟩
      · exact wp_runText (fun _ r => r.IsOvertaken k) (fun stop _ r => stop ≠ .exhausted ∧ r.IsOvertaken k) hparts.stops
      · exact wp_runText (fun _ r => k < r.generation) (fun stop _ r => stop = .exhausted ∨ k < r.generation) hparts.late

end

/-- Where the walk of a run that is overtaken and that of one that cannot be no
longer come to the same. -/
structure WalkParts (k : Nat) (held free : Option (Walk × Run)) : Prop where
  stops : ∃ w r, held = some (w, r) ∧ r.IsOvertaken k
  late : ∀ w r, free = some (w, r) → k < r.generation

/-- What a walk comes to in a run that holds a ticket, against a run that nothing
can overtake. -/
def WalkPaces (k : Nat) (held free : Option (Walk × Run)) : Prop :=
  free = held.map (Prod.map id Run.freed) ∨ WalkParts k held free

/-- What is left of a walk once it is over is its run. -/
def RunPaces (k : Nat) (held free : Option Run) : Prop :=
  free = held.map Run.freed ∨ (∃ r, held = some r ∧ r.IsOvertaken k) ∧ ∀ r, free = some r → k < r.generation

theorem WalkPaces.run {held free : Option (Walk × Run)} (h : WalkPaces k held free) :
    RunPaces k (held.map (·.2)) (free.map (·.2)) := by
  rcases h with rfl | ⟨⟨w, r, rfl, hover⟩, hlate⟩
  · left
    cases held <;> rfl
  · refine .inr ⟨⟨r, rfl, hover⟩, fun r' hr' => ?_⟩
    obtain ⟨x, hx, rfl⟩ := Option.map_eq_some_iff.mp hr'
    exact hlate x.1 x.2 hx

theorem LineM.paces_runBuffer {env : Setting} {s : LineState} {allowance : Allowance} {buffer : Buffer}
    {frames : List Frame} (henv : (∃ r', env.runBuffer allowance buffer frames s.run = some r') → env.Stops k)
    (h : RunPaces k (env.runBuffer allowance buffer frames s.run)
      (env.runBuffer allowance buffer frames s.run.freed)) :
    Paces k (LineM.runBuffer allowance buffer frames) env s := by
  rcases h with hagree | ⟨⟨r, hheld, hover⟩, hlate⟩
  · left
    unfold LineM.runBuffer
    dsimp only [LineState.freed]
    rw [hagree]
    cases env.runBuffer allowance buffer frames s.run <;> rfl
  · refine .inr ⟨henv ⟨r, hheld⟩, ?_, ?_⟩
    · unfold Stops wp LineM.runBuffer
      dsimp only
      rw [hheld]
      exact hover
    · unfold wp LineM.runBuffer
      dsimp only [LineState.freed]
      cases hfree : env.runBuffer allowance buffer frames s.run.freed with
      | none => exact .inl rfl
      | some r' => exact hlate r' hfree

theorem leave_freed (index : Nat) (line : String) (record : Bool) (problem : Option Problem) (s : LineState) :
    Walk.leave index line record problem s.freed =
      Prod.map id Run.freed (Walk.leave index line record problem s) := by
  unfold Walk.leave
  cases problem <;> cases record <;> rfl

theorem foldl_freed {α : Type} {f : Run → α → Run} (hf : ∀ r a, f r.freed a = (f r a).freed) (as : List α) (r : Run) :
    as.foldl f r.freed = (as.foldl f r).freed := by
  induction as generalizing r with
  | nil => rfl
  | cons a as ih =>
    rw [List.foldl_cons, List.foldl_cons, hf]
    exact ih _

theorem finish_freed (w : Walk) (r : Run) : w.finish r.freed = Prod.map id Run.freed (w.finish r) := by
  unfold Walk.finish
  dsimp only
  rw [foldl_freed (fun _ _ => rfl), foldl_freed]
  · rfl
  · intro r f
    split <;> rfl

section
variable {bound index : Nat} {allowance : Allowance}

theorem Setting.paces_ofLine
    (hwalk : ∀ allowance w r, r.Holds k →
      WalkPaces k (walk library bound allowance w r) (walk library bound allowance w r.freed)) :
    (Setting.ofLine library allowance bound index).Paces k := by
  refine paces_lineSetting precedes_runBufferWithin (fun evals allowance buffer frames s hs => ?_) _
  refine LineM.paces_runBuffer (fun hends => ?_) (hwalk allowance (.start buffer frames) s.run hs).run
  obtain ⟨r', hrun⟩ := hends
  cases bound with
  | zero => cases hrun
  | succ bound => exact stops_lineSetting evals

/-- Within no lines at all no buffer comes to an end. -/
theorem Setting.Stops.bound_pos (h : (Setting.ofLine library allowance bound index).Stops k) (hr : r.IsOvertaken k) :
    0 < bound := by
  cases bound with
  | succ bound => exact Nat.succ_pos bound
  | zero =>
    obtain ⟨r', hrun, -⟩ := h.runBuffer allowance default [] r hr
    cases hrun

/-- A line of a run that is overtaken meanwhile comes to its end. -/
theorem stepLine_of_stops {runBuffer : BufferRunner} {w : Walk} {line : String}
    (h : LineM.Stops k LineM.statements (lineSetting library runBuffer allowance.includes w.next allowance.evals)
      (w.entering r line)) :
    ∃ w' r', w.stepLine library runBuffer allowance r line = some (w', r') ∧ r'.IsOvertaken k := by
  have hleave (problem : Option Problem) (t : LineState) (ht : t.run.IsOvertaken k) : ∃ w' r',
      some (Walk.leave w.next line (w.recordsTree r) problem t) = some (w', r') ∧ r'.IsOvertaken k :=
    ⟨_, _, rfl, ht.of_precedes (.of_eq (meter_leave w.next line (w.recordsTree r) problem t))⟩
  rw [Walk.stepLine_eq]
  rcases hrun : LineM.statements (lineSetting library runBuffer allowance.includes w.next allowance.evals)
    (w.entering r line) with ⟨_, t⟩ | ⟨_ | _, t⟩
  · exact hleave none t (LineM.of_wp_ok h hrun)
  · exact hleave (some _) t (LineM.of_wp_error h hrun).2
  · exact absurd rfl (LineM.of_wp_error h hrun).1

theorem paces_stepLine (hwalk : ∀ allowance w r, r.Holds k →
      WalkPaces k (walk library bound allowance w r) (walk library bound allowance w r.freed))
    (w : Walk) (line : String) (hr : r.Holds k) :
    w.stepLine library (runBufferWithin library bound) allowance r.freed line =
        (w.stepLine library (runBufferWithin library bound) allowance r line).map (Prod.map id Run.freed) ∨
      0 < bound ∧ WalkParts k (w.stepLine library (runBufferWithin library bound) allowance r line)
        (w.stepLine library (runBufferWithin library bound) allowance r.freed line) := by
  have henv : (Setting.ofLine library allowance bound w.next).Paces k := Setting.paces_ofLine hwalk
  have hentering : w.entering r.freed line = (w.entering r line).freed := rfl
  have hrecord : w.recordsTree r.freed = w.recordsTree r := rfl
  rcases LineM.composed_statements.paces henv (s := w.entering r line) hr with hagree | hparts
  · left
    unfold Setting.ofLine at hagree
    rw [Walk.stepLine_eq, Walk.stepLine_eq, hrecord, hentering, hagree]
    rcases LineM.statements (lineSetting library (runBufferWithin library bound) allowance.includes w.next
      allowance.evals) (w.entering r line) with ⟨_, t⟩ | ⟨_ | _, t⟩
    · exact congrArg some (leave_freed ..)
    · exact congrArg some (leave_freed ..)
    · rfl
  · obtain ⟨w', r', hstep, hover⟩ := stepLine_of_stops hparts.stops
    refine .inr ⟨hparts.setting.bound_pos hover, ⟨w', r', hstep, hover⟩, fun w' r' hfree => ?_⟩
    exact meter_stepLine (k < ·.generation) hparts.late hfree

theorem paces_walk (bound : Nat) (allowance : Allowance) (w : Walk) (r : Run) (hr : r.Holds k) :
    WalkPaces k (walk library bound allowance w r) (walk library bound allowance w r.freed) := by
  induction bound generalizing allowance w r with
  | zero => exact .inl rfl
  | succ bound ih =>
    cases hline : w.buffer.lines[w.next]? with
    | none =>
      left
      unfold walk
      rw [hline]
      exact congrArg some (finish_freed w r)
    | some line =>
      by_cases hcancelled : r.isCancelled = true
      · have hover : r.IsOvertaken k := hr.isCancelled_iff.mp hcancelled
        have hheld : walk library (bound + 1) allowance w r = some (w, r) := by
          unfold walk
          simp only [hline, if_pos hcancelled]
        refine .inr ⟨⟨w, r, hheld, hover⟩, fun w' r' hfree => ?_⟩
        exact Nat.lt_of_lt_of_le hover.generation (precedes_walk _ _ _ _ _ _ hfree).generation
      · have hgoesOn : r.isCancelled = false := by simpa using hcancelled
        rw [Stage.walk_of_line hline hgoesOn, Stage.walk_of_line hline rfl]
        have hpaces : w.stepLine library (runBufferWithin library bound) allowance r.freed line =
              (w.stepLine library (runBufferWithin library bound) allowance r line).map (Prod.map id Run.freed) ∨
            0 < bound ∧ WalkParts k (w.stepLine library (runBufferWithin library bound) allowance r line)
              (w.stepLine library (runBufferWithin library bound) allowance r.freed line) :=
          paces_stepLine ih w line hr
        rcases hpaces with hagree | ⟨hbound, hparts⟩
        · rw [hagree]
          cases hstep : w.stepLine library (runBufferWithin library bound) allowance r line with
          | none => exact .inl rfl
          | some x =>
            have hx : x.2.Holds k := hr.of_precedes (precedes_stepLine precedes_runBufferWithin hstep)
            exact ih allowance x.1 x.2 hx
        · obtain ⟨w₁, r₁, hstep, hover⟩ := hparts.stops
          obtain ⟨bound, rfl⟩ := Nat.exists_eq_add_of_lt hbound
          rw [hstep]
          refine .inr ⟨walk_of_isOvertaken w₁ hover, fun w' r' hfree => ?_⟩
          split at hfree
          · cases hfree
          · rename_i w₂ r₂ hstep'
            exact Nat.lt_of_lt_of_le (hparts.late w₂ r₂ hstep') (precedes_walk _ _ _ _ _ _ hfree).generation

theorem paces_runPass {file : Nat} {text : String} {pass : Pass} (hr : r.Holds k) :
    RunPaces k (runPass library bound file text pass r) (runPass library bound file text pass r.freed) := by
  have hbegin : (r.beginPass pass).Holds k := ⟨hr.ticket, hr.generation⟩
  exact (paces_walk bound fullAllowance (.start (.ofText file text 0 none) []) _ hbegin).run

theorem precedes_runPass {file : Nat} {text : String} {pass : Pass} {r r' : Run}
    (h : runPass library bound file text pass r = some r') : r.meter.Precedes r'.meter :=
  precedes_runBufferWithin _ _ _ (r.beginPass pass) _ h

end

end
end Asm6502
