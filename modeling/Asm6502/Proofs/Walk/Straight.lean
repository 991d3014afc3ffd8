/-
# Walks without loops

Only a `FOR` opens a loop and only a loop moves a walk back. Where no loop is
open, a `NEXT` is a problem, and a statement other than a `FOR` leaves the walk on
its line, with no loop open. So does an `ASM` with no `FOR` in its text.

Key definitions: `Walk.IsLoopless`, `Walk.StaysOn`.
Key theorems: `LineM.staysOn_statement`, `LineState.GetsTo.staysOn`.
-/
import Asm6502.Proofs.Walk.Nesting

namespace Asm6502

namespace Walk

/-- Whether no loop of this walk is open. -/
def IsLoopless (w : Walk) : Prop := ∀ f ∈ w.own, f.isLoop = false

/-- Whether a walk without loops is still on its line. -/
structure StaysOn (w w' : Walk) : Prop where
  buffer : w'.buffer = w.buffer
  next : w'.next = w.next
  rewound : w'.rewound = w.rewound
  inherited : w'.inherited = w.inherited
  loopless : w'.IsLoopless

variable {w w' w'' : Walk}

theorem StaysOn.refl (h : w.IsLoopless) : w.StaysOn w := ⟨rfl, rfl, rfl, rfl, h⟩

theorem StaysOn.of_eq (h : w.IsLoopless) (heq : w' = w) : w.StaysOn w' := by
  rw [heq]
  exact .refl h

theorem StaysOn.trans (h : w.StaysOn w') (h' : w'.StaysOn w'') : w.StaysOn w'' :=
  ⟨h'.buffer.trans h.buffer, h'.next.trans h.next, h'.rewound.trans h.rewound, h'.inherited.trans h.inherited,
    h'.loopless⟩

/-- Without a loop there is no iteration to end. -/
theorem IsLoopless.stepLoop_eq (h : w.IsLoopless) (r : Run) : ∃ fault, w.stepLoop r = .error fault := by
  unfold stepLoop
  split
  · exact ⟨_, rfl⟩
  · rename_i f own hown
    have hf : f.isLoop = false := h f (hown ▸ List.mem_cons_self)
    split
    · rename_i l hkind
      rw [Frame.isLoop, hkind] at hf
      cases hf
    · exact ⟨_, rfl⟩

end Walk

/-- Only a loop that is begun and the text of an `ASM` open loops. -/
theorem Deed.staysOn {env : Setting} {on : Region} {may : Doing → Prop} {x y : Walk × Run} (h : Deed env on may x y)
    (hlooping : ¬ may .looping) (hinlining : ¬ may .inlining) (hx : x.1.IsLoopless) : x.1.StaysOn y.1 := by
  cases h with
  | looped hmay => exact absurd hmay hlooping
  | inlined _ hmay => exact absurd hmay hinlining
  | @opened w w' r r' kind spot hmay hopen =>
    obtain ⟨rfl, -⟩ := Walk.eq_of_openScope hopen
    refine ⟨rfl, rfl, rfl, rfl, List.forall_mem_cons.mpr ⟨?_, hx⟩⟩
    rcases hmay with ⟨rfl, -⟩ | ⟨rfl, -⟩ <;> rfl
  | closed _ hown => exact ⟨rfl, rfl, rfl, rfl, fun f hf => hx f (hown ▸ List.mem_cons_of_mem _ hf)⟩
  | stepped _ hstep =>
    obtain ⟨fault, hfault⟩ := hx.stepLoop_eq _
    cases hfault.symm.trans hstep
  | turned => exact ⟨rfl, rfl, rfl, rfl, hx⟩
  | begun _ _ hstart =>
    rw [Walk.frame_of_startMacro hstart]
    exact ⟨rfl, rfl, rfl, rfl, hx⟩
  | ended _ hend =>
    unfold Walk.endMacro at hend
    split at hend
    · split_ifs at hend
      cases hend
      exact ⟨rfl, rfl, rfl, rfl, hx⟩
    · cases hend
  | ran _ hcall =>
    cases hcall with
    | intro _ _ hown => exact ⟨rfl, rfl, rfl, rfl, fun f hf => hx f (hown ▸ List.mem_cons_of_mem _ hf)⟩
  | _ => exact .refl hx

namespace LineM

variable {env : Setting} {s : LineState} {start : Nat}

/-- A statement that is neither a `FOR` nor an `ASM` leaves a walk without loops on
its line. -/
theorem staysOn_statement (hfor : directive? s ≠ some .forLoop) (hasm : directive? s ≠ some .asm)
    (hs : s.walk.IsLoopless) :
    wp statement env s (fun _ t => s.walk.StaysOn t.walk) fun _ t => s.walk.StaysOn t.walk := by
  have hlooping : doing? s ≠ some .looping := fun h => hfor (doing?_eq_looping.mp h)
  have hinlining : doing? s ≠ some .inlining := fun h => hasm (doing?_eq_inlining.mp h)
  have hdeeds {t : LineState} (h : s.Deeds env .whole (doing? s = some ·) t) : s.walk.StaysOn t.walk :=
    h.keeps (P := fun w _ => s.walk.StaysOn w)
      (fun _ _ hdeed hx => hx.trans (hdeed.staysOn hlooping hinlining hx.loopless)) (.refl hs)
  exact wp_mono deeds_statement (fun _ _ ht => hdeeds ht) fun _ _ ht => hdeeds ht

/-- What an `ASM` comes to is what its text comes to. -/
theorem wp_asm {Q : LineState → Prop} {E : Stop → LineState → Prop}
    (hfail : ∀ stop t, openText env s = .error stop t → t.walk = s.walk → E stop t)
    (htext : ∀ text column t, openText env s = .ok (text, column) t → env.allowance.evals ≠ 0 → t.walk = s.walk →
      wp (fun env => env.runText text) env t
        (fun node u => Q { u with run.depth.evals := u.run.depth.evals - 1, parts := u.parts.push node })
        fun stop u => ∀ stop', (stop = .exhausted → stop' = .exhausted) →
          E stop' { u with run.depth.evals := u.run.depth.evals - 1 }) :
    wp asm env s (fun _ => Q) E := by
  unfold asm wp
  cases hopen : openText env s with
  | error stop t =>
    rw [bind_eq_resume, hopen]
    exact hfail stop t hopen (of_wp_error wp_openText hopen).resembles.walk
  | ok found t =>
    obtain ⟨text, column⟩ := found
    obtain ⟨⟨hevals, -⟩, v, rfl, hdeeds⟩ := of_wp_ok wp_openText hopen
    have hruns := htext text column v.inText hopen hevals hdeeds.resembles.walk
    rw [bind_of_ok hopen]
    dsimp only
    rw [bind_eq_resume, andThen_eq_mapState]
    unfold inline
    rcases hrun : env.runText text v.inText with ⟨node, u⟩ | ⟨_ | _, u⟩
    · exact of_wp_ok hruns hrun
    · exact of_wp_error hruns hrun _ (by rintro ⟨⟩)
    · exact of_wp_error hruns hrun _ id

end LineM

/-! ### Texts without loops -/

/-- Whether a line, and the texts on it, get to no `FOR`. -/
def LineState.IsQuiet (library : Library) (runBuffer : BufferRunner) (includes index n : Nat) (s : LineState) : Prop :=
  ∀ m t, s.GetsTo library runBuffer includes index n m t →
    LineM.directive? { t with cursor := t.cursor.skipBlanks } ≠ some .forLoop

section
variable {library : Library} {runBuffer : BufferRunner} {includes index n m : Nat} {s t : LineState}

/-- The statements of a line, where each of them leaves the walk on its line. -/
theorem LineState.GetsTo.staysOn_statements
    (henv : (lineSetting library runBuffer includes index m).IsTame)
    (hstatement : ∀ t, s.GetsTo library runBuffer includes index n m t → t.walk.IsLoopless →
      t.cursor.skipBlanks.rest ≠ [] →
      LineM.wp LineM.statement (lineSetting library runBuffer includes index m) { t with cursor := t.cursor.skipBlanks }
        (fun _ u => t.walk.StaysOn u.walk) fun _ u => t.walk.StaysOn u.walk)
    (ht : s.GetsTo library runBuffer includes index n m t) (hloopless : t.walk.IsLoopless) :
    LineM.wp LineM.statements (lineSetting library runBuffer includes index m) t
      (fun _ u => t.walk.StaysOn u.walk) fun _ u => t.walk.StaysOn u.walk := by
  -- each statement leaves less of the line
  induction hlength : t.cursor.rest.length using Nat.strong_induction_on generalizing t with
  | _ length ih =>
    subst hlength
    unfold LineM.wp
    rw [LineM.statements_eq henv]
    by_cases hrest : t.cursor.skipBlanks.rest = []
    · rw [if_pos hrest]
      exact .refl hloopless
    rw [if_neg hrest]
    have hstays := hstatement t ht hloopless hrest
    rcases hrun : LineM.statement (lineSetting library runBuffer includes index m)
      { t with cursor := t.cursor.skipBlanks } with ⟨_ | _, u⟩ | ⟨stop, u⟩
    · exact LineM.of_wp_ok hstays hrun
    · have hu : t.walk.StaysOn u.walk := LineM.of_wp_ok hstays hrun
      have hless := LineM.rest_lt_of_statement henv hrest hrun
      exact LineM.wp_mono (ih _ hless (.executes ht hrest hrun) hu.loopless rfl)
        (fun _ _ hv => hu.trans hv) fun _ _ hv => hu.trans hv
    · exact LineM.of_wp_error hstays hrun

/-- An `ASM` leaves the walk where its text leaves it. -/
theorem LineState.staysOn_asm (hasm : LineM.directive? { t with cursor := t.cursor.skipBlanks } = some .asm)
    (hloopless : t.walk.IsLoopless)
    (htext : ∀ k text u, m = k + 1 → t.Inlines (lineSetting library runBuffer includes index m) text u →
      u.walk = t.walk →
      LineM.wp LineM.statements (lineSetting library runBuffer includes index k) ⟨.ofText text, #[], #[], u.walk, u.run⟩
        (fun _ v => t.walk.StaysOn v.walk) fun _ v => t.walk.StaysOn v.walk) :
    LineM.wp LineM.statement (lineSetting library runBuffer includes index m) { t with cursor := t.cursor.skipBlanks }
      (fun _ u => t.walk.StaysOn u.walk) fun _ u => t.walk.StaysOn u.walk := by
  obtain ⟨spelling, hfind⟩ := LineM.find?_of_directive? hasm
  apply LineM.wp_statement_directive hasm hfind
  refine LineM.wp_mono (LineM.wp_asm (Q := fun u => t.walk.StaysOn u.walk)
    (fun _ u _ hu => .of_eq hloopless hu) fun text column u hopen hevals hwalk => ?_) ?_ fun _ _ hu => hu
  · obtain ⟨k, rfl⟩ := Nat.exists_eq_succ_of_ne_zero hevals
    have hstays := wp_runText (fun w _ => t.walk.StaysOn w) (fun _ w _ => t.walk.StaysOn w)
      (htext k text u rfl ⟨hasm, spelling, column, hfind, hopen⟩ hwalk)
    exact LineM.wp_mono hstays (fun _ _ hu => hu) fun _ _ hu _ _ => hu
  · exact fun _ _ hu _ => hu

/-- On a quiet line every statement, an `ASM` too, leaves a walk without loops on
the line. -/
theorem LineState.GetsTo.staysOn_statement
    (hrunner : ∀ allowance buffer frames r r', runBuffer allowance buffer frames r = some r' → r'.depth = r.depth)
    (hquiet : s.IsQuiet library runBuffer includes index n) (ht : s.GetsTo library runBuffer includes index n m t)
    (hloopless : t.walk.IsLoopless) :
    LineM.wp LineM.statement (lineSetting library runBuffer includes index m) { t with cursor := t.cursor.skipBlanks }
      (fun _ u => t.walk.StaysOn u.walk) fun _ u => t.walk.StaysOn u.walk := by
  -- a text has one less to nest
  induction m using Nat.strong_induction_on generalizing t with
  | _ m ih =>
    by_cases hasm : LineM.directive? { t with cursor := t.cursor.skipBlanks } = some .asm
    · refine staysOn_asm hasm hloopless fun k text u hk hinlines hwalk => ?_
      subst hk
      have hinside := staysOn_statements (isTame_lineSetting hrunner k)
        (fun v hv hloopless _ => ih k (Nat.lt_succ_self k) hv hloopless) (.inlines ht hinlines) (hwalk ▸ hloopless)
      rwa [← hwalk]
    · exact LineM.staysOn_statement (hquiet m t ht) hasm hloopless

theorem LineState.GetsTo.staysOn
    (hrunner : ∀ allowance buffer frames r r', runBuffer allowance buffer frames r = some r' → r'.depth = r.depth)
    (hquiet : s.IsQuiet library runBuffer includes index n) (ht : s.GetsTo library runBuffer includes index n m t)
    (hloopless : s.walk.IsLoopless) : s.walk.StaysOn t.walk := by
  induction ht with
  | refl => exact .refl hloopless
  | executes hbefore _ hrun ih =>
    have hstays := hbefore.staysOn_statement hrunner hquiet ih.loopless
    exact ih.trans (LineM.of_wp_ok hstays hrun)
  | inlines _ hopens ih => exact ih.trans (.of_eq ih.loopless hopens.opened.1)

end
end Asm6502
