/-
# What a walk leaves as it was

A walk begins inside the scopes of its caller. It opens scopes on top of them and
closes what it has opened, whatever happens on its lines: a macro call that
fails half-way, a text of an `ASM` with a problem, a `NEXT` or a brace that
matches nothing. So between any two statements the caller's scopes are at the
bottom and there is room for all of them, and at the end nothing is left but the
caller's scopes.

The statements of a text stand on the same walk as the `ASM` that executes it.

Key definitions: `Walk.IsWithin`, `LineState.Passes`, `Stage.Meets`.
Key theorems: `Walk.Effect.isWithin`, `LineState.Passes.isWithin`,
`Stage.Advances.isWithin`, `walk_restores_scopes`.
-/
import Asm6502.Proofs.Walk.Stage

namespace Asm6502

/-! ### The scopes of the caller -/

/-- A walk over the lines of a buffer, inside the scopes of its caller. It has no
more scopes open than may be, if its caller had not. -/
structure Walk.IsWithin (buffer : Buffer) (frames : List Frame) (w : Walk) : Prop where
  buffer_eq : w.buffer = buffer
  inherited_eq : w.inherited = frames
  room : frames.length ≤ maxScopes → w.frames.length ≤ maxScopes

variable {buffer : Buffer} {frames : List Frame}

namespace Walk

theorem IsWithin.suffix {w : Walk} (h : w.IsWithin buffer frames) : frames <:+ w.frames := by
  rw [← h.inherited_eq]
  exact List.suffix_append _ _

theorem isWithin_start (buffer : Buffer) (frames : List Frame) : (start buffer frames).IsWithin buffer frames :=
  ⟨rfl, rfl, id⟩

/-- Scopes may be closed, and other things changed. -/
theorem IsWithin.changeOwn {w w' : Walk} (h : w.IsWithin buffer frames) (hbuffer : w'.buffer = w.buffer)
    (hinherited : w'.inherited = w.inherited) (hown : w'.own.length ≤ w.own.length) :
    w'.IsWithin buffer frames := by
  refine ⟨hbuffer.trans h.buffer_eq, hinherited.trans h.inherited_eq, fun hframes => ?_⟩
  have hroom := h.room hframes
  simp only [Walk.frames, List.length_append, hinherited] at hroom ⊢
  omega

theorem Effect.isWithin {runBuffer : BufferRunner} {steps : Prop} {x y : Walk × Run}
    (he : Effect runBuffer steps x y) (h : x.1.IsWithin buffer frames) : y.1.IsWithin buffer frames := by
  cases he with
  | stays => exact h
  | @opened w r kind spot hroom =>
    have hframes : (⟨kind, r.lastScope + 1, 0, spot⟩ :: w.frames).length ≤ maxScopes := hroom
    exact ⟨h.buffer_eq, h.inherited_eq, fun _ => hframes⟩
  | closed hown =>
    refine h.changeOwn rfl rfl ?_
    simp [hown]
  | stepped _ hstep =>
    obtain ⟨f, own, l, hown, -, ⟨rfl, -⟩ | ⟨l', -, rfl, -⟩⟩ := eq_of_stepLoop hstep
    · refine h.changeOwn rfl rfl ?_
      simp [hown]
    · refine h.changeOwn rfl rfl ?_
      simp [hown]
  | turned => exact h.changeOwn rfl rfl (Nat.le_refl _)
  | captured => exact h.changeOwn rfl rfl (Nat.le_refl _)
  | ran => exact h

end Walk

theorem LineState.Comes.isWithin {env : Setting} {steps : Prop} {s t : LineState} (h : s.Comes env steps t)
    (hs : s.walk.IsWithin buffer frames) : t.walk.IsWithin buffer frames :=
  h.keeps (P := fun w _ => w.IsWithin buffer frames) (fun _ _ he hw => he.isWithin hw) hs

/-! ### Between statements -/

variable {library : Library} {allowance : Allowance} {bound : Nat}

/-- Whether a line, or a text on it, gets from one state to another between its
statements. The statements of the text of an `ASM` count, and so do those that
stop at a problem. `evals` is how deep texts may still be nested. -/
inductive LineState.Passes (library : Library) (runBuffer : BufferRunner) (includes index : Nat) :
    Nat → LineState → LineState → Prop
  | refl {evals : Nat} (s : LineState) : Passes library runBuffer includes index evals s s
  | executes {evals : Nat} {s t u : LineState} {goesOn : Bool}
      (hbefore : Passes library runBuffer includes index evals s t) (hrest : t.cursor.skipBlanks.rest ≠ [])
      (hrun : LineM.statement (lineSetting library runBuffer includes index evals)
        { t with cursor := t.cursor.skipBlanks } = .ok goesOn u) :
      Passes library runBuffer includes index evals s u
  | fails {evals : Nat} {s t u : LineState} {stop : Stop}
      (hbefore : Passes library runBuffer includes index evals s t) (hrest : t.cursor.skipBlanks.rest ≠ [])
      (hrun : LineM.statement (lineSetting library runBuffer includes index evals)
        { t with cursor := t.cursor.skipBlanks } = .error stop u) :
      Passes library runBuffer includes index evals s u
  | inlines {evals : Nat} {s t u v : LineState} {spelling text : String} {column : Nat}
      (hbefore : Passes library runBuffer includes index (evals + 1) s t)
      (hlive : t.walk.isLive = true) (hassignment : t.cursor.skipBlanks.atAssignment = false)
      (hfind : Directive.find? t.cursor.skipBlanks.rest = some (spelling, .asm))
      (hopen : LineM.openText (lineSetting library runBuffer includes index (evals + 1))
        { t with cursor := t.cursor.skipBlanks.skip spelling.length, parts := #[] } = .ok (text, column) u)
      (hinside : Passes library runBuffer includes index evals ⟨.ofText text, #[], #[], u.walk, u.run⟩ v) :
      Passes library runBuffer includes index (evals + 1) s v

theorem LineState.Passes.isWithin {runBuffer : BufferRunner} {includes index evals : Nat} {s t : LineState}
    (hrunner : ∀ allowance buffer frames r r', runBuffer allowance buffer frames r = some r' →
      r'.depth = r.depth)
    (h : Passes library runBuffer includes index evals s t) (hs : s.walk.IsWithin buffer frames) :
    t.walk.IsWithin buffer frames := by
  have hstatement (evals : Nat) (t : LineState) (hrest : t.cursor.skipBlanks.rest ≠ []) :
      LineM.DoesOn (lineSetting library runBuffer includes index evals) True
        { t with cursor := t.cursor.skipBlanks.skip 1 } LineM.statement
        { t with cursor := t.cursor.skipBlanks } :=
    LineM.does_statement (isTame_lineSetting hrunner evals) hrest fun _ => trivial
  induction h with
  | refl => exact hs
  | @executes evals s t u goesOn _ hrest hrun ih =>
    exact (LineM.of_wp_ok (hstatement evals t hrest) hrun).comes.isWithin (ih hs)
  | @fails evals s t u stop _ hrest hrun ih =>
    exact (LineM.of_wp_error (hstatement evals t hrest) hrun).isWithin (ih hs)
  | @inlines evals s t u v spelling text column _ _ _ _ hopen _ ih ihinside =>
    obtain ⟨-, v, rfl, hdeeds⟩ := LineM.of_wp_ok LineM.wp_openText hopen
    have hwalk : v.inText.walk = t.walk := hdeeds.resembles.walk
    refine ihinside ?_
    dsimp only
    rw [hwalk]
    exact ih hs

namespace Stage

/-- Whether a walk and a run stand between two statements of the walk begun at a
stage: before a line, or before, between or after the statements of a line or a
text. -/
inductive Meets (library : Library) (allowance : Allowance) (p : Stage) : Walk → Run → Prop
  | line {q : Stage} (hpath : Relation.ReflTransGen (Advances library allowance) p q) :
      Meets library allowance p q.walk q.run
  | statement {bound index : Nat} {line : String} {record : Bool} {s t : LineState}
      (hpath : Relation.ReflTransGen (Advances library allowance) p (inside bound index line record s))
      (hpasses : s.Passes library (runBufferWithin library bound) allowance.includes index allowance.evals t) :
      Meets library allowance p t.walk t.run

theorem isWithin_left {index : Nat} {line : String} {record : Bool} {problem : Option Problem}
    {s : LineState} (hs : s.walk.IsWithin buffer frames) :
    (left bound index line record problem s).walk.IsWithin buffer frames := by
  obtain ⟨capture, hcapture⟩ := s.walk.captureLine_eq index line
  change (s.walk.captureLine index line).IsWithin buffer frames
  rw [hcapture]
  exact hs.changeOwn rfl rfl (Nat.le_refl _)

section
variable {index : Nat} {steps : Prop} {s t : LineState} (hrest : s.cursor.skipBlanks.rest ≠ [])
  (hsteps : LineM.directive? { s with cursor := s.cursor.skipBlanks } = some .next ∨
    LineM.directive? { s with cursor := s.cursor.skipBlanks } = some .asm → steps)
include hrest hsteps

theorem does_execute (library : Library) (allowance : Allowance) (bound index : Nat) :
    LineM.wp LineM.statement (.ofLine library allowance bound index) { s with cursor := s.cursor.skipBlanks }
      (fun _ t => s.Comes (.ofLine library allowance bound index) steps t)
      fun _ t => s.Comes (.ofLine library allowance bound index) steps t := by
  have hstatement : LineM.DoesOn (.ofLine library allowance bound index) steps
      { s with cursor := s.cursor.skipBlanks.skip 1 } LineM.statement { s with cursor := s.cursor.skipBlanks } :=
    LineM.does_statement Setting.isTame_ofLine hrest hsteps
  exact LineM.wp_mono hstatement (fun _ _ ht => ⟨ht.comes.path, ht.comes.depth⟩)
    fun _ _ ht => ⟨ht.path, ht.depth⟩

theorem comes_of_execute_ok {goesOn : Bool} (hrun : execute library allowance bound index s = .ok goesOn t) :
    s.Comes (.ofLine library allowance bound index) steps t := by
  have hcomes := LineM.of_wp_ok (does_execute hrest hsteps library allowance bound index) hrun
  exact hcomes

theorem comes_of_execute_error {stop : Stop} (hrun : execute library allowance bound index s = .error stop t) :
    s.Comes (.ofLine library allowance bound index) steps t := by
  have hcomes := LineM.of_wp_error (does_execute hrest hsteps library allowance bound index) hrun
  exact hcomes

end

theorem Advances.isWithin {p q : Stage} (h : Advances library allowance p q)
    (hp : p.walk.IsWithin buffer frames) : q.walk.IsWithin buffer frames := by
  cases h with
  | enters => exact hp.changeOwn rfl rfl (Nat.le_refl _)
  | executes hrest hrun => exact (comes_of_execute_ok hrest (fun _ => trivial) hrun).isWithin hp
  | rewinds hrest hrun => exact isWithin_left ((comes_of_execute_ok hrest (fun _ => trivial) hrun).isWithin hp)
  | ends => exact isWithin_left hp
  | fails hrest hrun => exact isWithin_left ((comes_of_execute_error hrest (fun _ => trivial) hrun).isWithin hp)

theorem isWithin_path {p q : Stage} (h : Relation.ReflTransGen (Advances library allowance) p q)
    (hp : p.walk.IsWithin buffer frames) : q.walk.IsWithin buffer frames := by
  induction h with
  | refl => exact hp
  | tail _ hstep ih => exact hstep.isWithin ih

theorem Meets.isWithin {p : Stage} {w : Walk} {r : Run} (h : p.Meets library allowance w r)
    (hp : p.walk.IsWithin buffer frames) : w.IsWithin buffer frames := by
  cases h with
  | line hpath => exact isWithin_path hpath hp
  | statement hpath hpasses => exact hpasses.isWithin depth_runBufferWithin (isWithin_path hpath hp)

end Stage

/-! ### The end of a walk -/

/-- What a walk comes to when it is not overtaken. -/
theorem eq_finish_of_walk {w w' : Walk} {r r' : Run} (h : walk library bound allowance w r = some (w', r'))
    (hgoesOn : r'.isCancelled = false) :
    ∃ n w₁ r₁, Relation.ReflTransGen (Stage.Advances library allowance) (.before bound w r)
      (.before (n + 1) w₁ r₁) ∧ w₁.buffer.lines[w₁.next]? = none ∧ w₁.finish r₁ = (w', r') := by
  obtain ⟨q, hpath, hends⟩ := Stage.exists_ends h
  generalize hresult : (w', r') = result at hends
  cases hends with
  | @finishes n w₁ r₁ hline => exact ⟨n, w₁, r₁, hpath, hline, rfl⟩
  | stops _ hcancelled =>
    cases hresult
    rw [hgoesOn] at hcancelled
    cases hcancelled

/-- A walk keeps to its own scopes. Let it run any buffer inside at most as many
scopes as may be open.

Between any two statements the scopes of the caller are open as they were, below
all others, and no more scopes are open than may be. When the walk comes to its
end without being overtaken, exactly the scopes of the caller are open, no
conditional is open, no macro is captured, and the run is as deep inside included
files and texts as before. What a macro call, an included file or any other lines
do leaves the walk that brought them in as it was, whether it ends well or not. -/
theorem walk_restores_scopes (buffer : Buffer) {frames : List Frame} (r : Run)
    (hroom : frames.length ≤ maxScopes) :
    (∀ w r', (Stage.before bound (.start buffer frames) r).Meets library allowance w r' →
      frames <:+ w.frames ∧ w.frames.length ≤ maxScopes) ∧
    (∀ w' r', walk library bound allowance (.start buffer frames) r = some (w', r') →
      r'.isCancelled = false →
      w'.frames = frames ∧ w'.conditionals = [] ∧ w'.capture = none ∧ r'.depth = r.depth) ∧
    ∀ index s,
      (∀ name m start, s.run.macros.get? name = some m →
        LineM.wp (LineM.macroCall m start) (.ofLine library allowance bound index) s
          (fun _ t => t.walk = s.walk) fun _ t => t.walk = s.walk) ∧
      (∀ start, LineM.wp (LineM.includeFile start) (.ofLine library allowance bound index) s
        (fun _ t => t.walk = s.walk) fun _ t => t.walk = s.walk) ∧
      ∀ nested buffer' frames', LineM.wp (LineM.runBuffer nested buffer' frames')
        (.ofLine library allowance bound index) s
        (fun _ t => t.walk = s.walk ∧ t.cursor = s.cursor) fun _ t => t.walk = s.walk ∧ t.cursor = s.cursor := by
  have hstart := Walk.isWithin_start buffer frames
  refine ⟨fun w r' hmeets => ?_, fun w' r' hwalk hgoesOn => ?_, fun index s => ⟨?_, ?_, ?_⟩⟩
  · have hwithin := hmeets.isWithin hstart
    exact ⟨hwithin.suffix, hwithin.room hroom⟩
  · obtain ⟨n, w₁, r₁, hpath, -, hfinish⟩ := eq_finish_of_walk hwalk hgoesOn
    have hwithin : w₁.IsWithin buffer frames := Stage.isWithin_path hpath hstart
    have hdepth := Run.isPassage_depth.walk _ _ _ _ _ _ hwalk
    obtain ⟨rfl, -⟩ := Prod.mk.inj hfinish
    exact ⟨hwithin.inherited_eq, rfl, rfl, hdepth⟩
  · intro name m start hm
    have : Fact (Doing.Any .calling) := ⟨trivial⟩
    have hcall : LineM.Stays (.ofLine library allowance bound index) .whole Doing.Any (LineM.macroCall m start) s :=
      LineM.stays_macroCall trivial ⟨name, hm⟩
    exact LineM.wp_mono hcall (fun _ _ ht => ht.2.1) fun _ _ ht => ht.1
  · intro start
    have hincluded : LineM.Stays (.ofLine library allowance bound index) .whole Doing.Any (LineM.includeFile start) s :=
      LineM.Acts.stays .including (LineM.acts_includeFile trivial trivial) (LineM.acts_includeFile rfl trivial) rfl
    exact LineM.wp_mono hincluded (fun _ _ ht => ht.2.1) fun _ _ ht => ht.1
  · intro nested buffer' frames'
    rw [LineM.wp, LineM.runBuffer]
    split <;> rename_i hrun <;> split at hrun <;> cases hrun <;> exact ⟨rfl, rfl⟩

/-- Lines that leave a loop, a brace, a condition and a macro open, after a `NEXT`
that matches nothing. -/
def unclosedSample : Buffer := .ofText 0 "NEXT\nFOR i,1,2\n\x7b\nNEXT\nIF 1\nMACRO m a\n" 0 none

theorem walk_restores_scopes_unclosed :
    ∃ w' r', walk (.ofFiles []) 8 fullAllowance (.start unclosedSample [⟨.brace, 1, 0, ⟨0, 0⟩⟩])
        (.start ⟨[], 0, none⟩ 0 .never 0) = some (w', r') ∧
      r'.isCancelled = false ∧ r'.reports.size = 6 ∧ w'.frames = [⟨.brace, 1, 0, ⟨0, 0⟩⟩] ∧
      w'.conditionals = [] ∧ w'.capture = none ∧ r'.depth = ⟨0, 0⟩ := by
  have hruns : (walk (.ofFiles []) 8 fullAllowance (.start unclosedSample [⟨.brace, 1, 0, ⟨0, 0⟩⟩])
      (.start ⟨[], 0, none⟩ 0 .never 0)).map (fun left => (left.2.isCancelled, left.2.reports.size)) =
        some (false, 6) := by decide +kernel
  obtain ⟨⟨w', r'⟩, hwalk, hresult⟩ := Option.map_eq_some_iff.mp hruns
  obtain ⟨hgoesOn, hreported⟩ := Prod.mk.inj hresult
  refine ⟨w', r', hwalk, hgoesOn, hreported, ?_⟩
  exact (walk_restores_scopes unclosedSample _ (by decide)).2.1 w' r' hwalk hgoesOn

end Asm6502
