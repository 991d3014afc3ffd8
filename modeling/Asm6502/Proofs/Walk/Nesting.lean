/-
# How deep lines are nested

A document brings in files, macros and texts, and these bring in others. `Visits`
says where this leads: to every line of every walk, and from every statement, be
it one of a text, to the lines that it brings in. The bounds on lines stand for
no bound at all, because each walk may be given any.

Wherever it leads, the number of included files around a line and the number of
files that may still be included make up the most there may be; so do the texts
of `ASM` around a line, and the texts that may still be nested; and no more
scopes are open than may be. Whatever is brought in has less left in all.

Key definitions: `LineState.GetsTo`, `Visits`, `Stage.Leads`, `Meets`, `IsBalanced`,
`leeway`, `Run.IsDescent`.
Key theorems: `Visits.isBalanced`, `Meets.isBalanced`, `Call.IsNested.leeway_lt`,
`Visits.relates`.
-/
import Asm6502.Proofs.Statement.Calls
import Asm6502.Proofs.Walk.Discipline

namespace Asm6502

/-! ### Places -/

/-- Whether an `ASM` is executed next that goes inside its text, in a state. -/
structure LineState.Inlines (env : Setting) (t : LineState) (text : String) (u : LineState) : Prop where
  executed : LineM.directive? { t with cursor := t.cursor.skipBlanks } = some .asm
  opens : ∃ spelling column, Directive.find? t.cursor.skipBlanks.rest = some (spelling, .asm) ∧
    LineM.openText env { t with cursor := t.cursor.skipBlanks.skip spelling.length, parts := #[] } =
      .ok (text, column) u

/-- Whether a line gets to a statement of its own or of a text on it. The numbers
say how deep texts may still be nested. -/
inductive LineState.GetsTo (library : Library) (runBuffer : BufferRunner) (includes index n : Nat) (s : LineState) :
    Nat → LineState → Prop
  | refl : GetsTo library runBuffer includes index n s n s
  | executes {m : Nat} {t u : LineState} (hbefore : GetsTo library runBuffer includes index n s m t)
      (hrest : t.cursor.skipBlanks.rest ≠ [])
      (hrun : LineM.statement (lineSetting library runBuffer includes index m)
        { t with cursor := t.cursor.skipBlanks } = .ok true u) :
      GetsTo library runBuffer includes index n s m u
  | inlines {m : Nat} {t u : LineState} {text : String}
      (hbefore : GetsTo library runBuffer includes index n s (m + 1) t)
      (hopens : t.Inlines (lineSetting library runBuffer includes index (m + 1)) text u) :
      GetsTo library runBuffer includes index n s m ⟨.ofText text, #[], #[], u.walk, u.run⟩

/-- Whether a walk, or one of the walks that it brings in, gets to a stage. -/
inductive Visits (library : Library) (allowance : Allowance) (w : Walk) (r : Run) : Allowance → Stage → Prop
  | start (bound : Nat) : Visits library allowance w r allowance (.before bound w r)
  | advances {a : Allowance} {p q : Stage} (hbefore : Visits library allowance w r a p)
      (hstep : Stage.Advances library a p q) : Visits library allowance w r a q
  | nests {a : Allowance} {bound index n : Nat} {line : String} {record : Bool} {s t : LineState} {x : Call}
      (bound' : Nat) (hbefore : Visits library allowance w r a (.inside bound index line record s))
      (hgets : s.GetsTo library (runBufferWithin library bound) a.includes index a.evals n t)
      (hrest : t.cursor.skipBlanks.rest ≠ [])
      (hasm : LineM.directive? { t with cursor := t.cursor.skipBlanks } ≠ some .asm)
      (hwaits : LineM.Waits x LineM.statement
        (lineSetting library (runBufferWithin library bound) a.includes index n)
        { t with cursor := t.cursor.skipBlanks }) :
      Visits library allowance w r x.allowance (.before bound' (.start x.buffer x.frames) x.run)

/-- Whether a stage leads to another one, of the same walk or of one that is brought
in. -/
inductive Stage.Leads (library : Library) (allowance : Allowance) (p : Stage) : Allowance → Stage → Prop
  | refl : Leads library allowance p allowance p
  | advances {a : Allowance} {q q' : Stage} (hbefore : Leads library allowance p a q)
      (hstep : Stage.Advances library a q q') : Leads library allowance p a q'
  | nests {a : Allowance} {bound index n : Nat} {line : String} {record : Bool} {s t : LineState} {x : Call}
      (bound' : Nat) (hbefore : Leads library allowance p a (.inside bound index line record s))
      (hgets : s.GetsTo library (runBufferWithin library bound) a.includes index a.evals n t)
      (hrest : t.cursor.skipBlanks.rest ≠ [])
      (hasm : LineM.directive? { t with cursor := t.cursor.skipBlanks } ≠ some .asm)
      (hwaits : LineM.Waits x LineM.statement
        (lineSetting library (runBufferWithin library bound) a.includes index n)
        { t with cursor := t.cursor.skipBlanks }) :
      Leads library allowance p x.allowance (.before bound' (.start x.buffer x.frames) x.run)

/-- A walk gets to the stages to which its beginning leads. -/
theorem Visits.exists_leads {library : Library} {allowance a : Allowance} {w : Walk} {r : Run} {p : Stage}
    (h : Visits library allowance w r a p) : ∃ bound, Stage.Leads library allowance (.before bound w r) a p := by
  induction h with
  | start bound => exact ⟨bound, .refl⟩
  | advances _ hstep ih =>
    obtain ⟨bound, hleads⟩ := ih
    exact ⟨bound, hleads.advances hstep⟩
  | nests bound' _ hgets hrest hasm hwaits ih =>
    obtain ⟨bound, hleads⟩ := ih
    exact ⟨bound, hleads.nests bound' hgets hrest hasm hwaits⟩

/-- Whether a walk, or one of the walks that it brings in, gets to a statement of
a line or of a text on it. -/
def Meets (library : Library) (allowance : Allowance) (w : Walk) (r : Run) (a : Allowance) (t : LineState) : Prop :=
  ∃ bound index line record s n, Visits library allowance w r ⟨a.includes, n⟩ (.inside bound index line record s) ∧
    s.GetsTo library (runBufferWithin library bound) a.includes index n a.evals t

/-! ### What is used up and what is left -/

/-- Whether what is nested around a place and what may still be nested make up the
most there may be. -/
structure IsBalanced (allowance : Allowance) (w : Walk) (r : Run) : Prop where
  includes : r.depth.includes + allowance.includes = maxIncludes
  evals : r.depth.evals + allowance.evals = maxEvals
  scopes : w.frames.length ≤ maxScopes

/-- How much may still be nested, of all kinds. -/
def leeway (allowance : Allowance) (frames : List Frame) : Nat :=
  allowance.includes + allowance.evals + (maxScopes - frames.length)

theorem Call.IsNested.leeway_lt {allowance : Allowance} {frames : List Frame} {depth : Depth} {x : Call}
    (h : x.IsNested allowance frames depth) : leeway x.allowance x.frames < leeway allowance frames := by
  unfold leeway
  cases h with
  | file hallowance hinner hframes _ =>
    rw [hallowance, hinner, hframes]
    dsimp only
    omega
  | expansion hinner hroom hframes _ =>
    rw [hinner, hframes, List.length_cons]
    omega

theorem Call.IsNested.isBalanced {allowance : Allowance} {w : Walk} {r : Run} {x : Call}
    (h : x.IsNested allowance w.frames r.depth) (hs : IsBalanced allowance w r) :
    IsBalanced x.allowance (.start x.buffer x.frames) x.run := by
  obtain ⟨hincludes, hevals, hscopes⟩ := hs
  cases h with
  | file hallowance hinner hframes hdepth =>
    rw [hallowance] at hincludes hevals
    refine ⟨?_, ?_, ?_⟩
    · rw [hdepth, hinner, ← hincludes]
      dsimp only
      omega
    · rw [hdepth, hinner]
      exact hevals
    · change x.frames.length ≤ maxScopes
      rw [hframes]
      exact hscopes
  | expansion hinner hroom hframes hdepth =>
    rw [← hinner] at hincludes hevals
    rw [← hdepth] at hincludes hevals
    refine ⟨hincludes, hevals, ?_⟩
    change x.frames.length ≤ maxScopes
    rw [hframes]
    exact hroom

section
variable {library : Library} {allowance : Allowance}

theorem LineState.Comes.isBalanced {env : Setting} {steps : Prop} {s t : LineState} (h : s.Comes env steps t)
    (hs : IsBalanced allowance s.walk s.run) : IsBalanced allowance t.walk t.run := by
  have hwithin : s.walk.IsWithin s.walk.buffer s.walk.inherited := ⟨rfl, rfl, fun _ => hs.scopes⟩
  have hinherited : s.walk.inherited.length ≤ maxScopes :=
    hwithin.suffix.length_le.trans hs.scopes
  exact ⟨h.depth ▸ hs.includes, h.depth ▸ hs.evals, (h.isWithin hwithin).room hinherited⟩

/-- An `ASM` goes inside its text on the same walk, one level deeper. -/
theorem LineState.Inlines.opened {env : Setting} {t u : LineState} {text : String} (h : t.Inlines env text u) :
    u.walk = t.walk ∧ u.run.depth = ⟨t.run.depth.includes, t.run.depth.evals + 1⟩ := by
  obtain ⟨spelling, column, -, hopen⟩ := h.opens
  obtain ⟨-, v, rfl, hdeeds⟩ := LineM.of_wp_ok LineM.wp_openText hopen
  have hdepth : v.run.depth = t.run.depth := hdeeds.resembles.depth
  refine ⟨hdeeds.resembles.walk, ?_⟩
  simp only [LineState.inText, hdepth]

theorem LineState.Inlines.isBalanced {env : Setting} {includes n : Nat} {t u : LineState} {text : String}
    (h : t.Inlines env text u) (ht : IsBalanced ⟨includes, n + 1⟩ t.walk t.run) :
    IsBalanced ⟨includes, n⟩ u.walk u.run := by
  obtain ⟨hwalk, hdepth⟩ := h.opened
  refine ⟨?_, ?_, ?_⟩
  · rw [hdepth]
    exact ht.includes
  · rw [hdepth, ← ht.evals]
    dsimp only
    omega
  · rw [hwalk]
    exact ht.scopes

theorem LineState.GetsTo.isBalanced {runBuffer : BufferRunner} {includes index n m : Nat} {s t : LineState}
    (hrunner : ∀ allowance buffer frames r r', runBuffer allowance buffer frames r = some r' →
      r'.depth = r.depth)
    (h : s.GetsTo library runBuffer includes index n m t) (hs : IsBalanced ⟨includes, n⟩ s.walk s.run) :
    IsBalanced ⟨includes, m⟩ t.walk t.run := by
  induction h with
  | refl => exact hs
  | @executes m t u _ hrest hrun ih =>
    have hstatement : LineM.DoesOn (lineSetting library runBuffer includes index m) True
        { t with cursor := t.cursor.skipBlanks.skip 1 } LineM.statement { t with cursor := t.cursor.skipBlanks } :=
      LineM.does_statement (isTame_lineSetting hrunner m) hrest fun _ => trivial
    exact (LineM.of_wp_ok hstatement hrun).comes.isBalanced ih
  | inlines _ hopens ih => exact hopens.isBalanced ih

theorem Stage.Advances.isBalanced {p q : Stage} (h : Advances library allowance p q)
    (hp : IsBalanced allowance p.walk p.run) : IsBalanced allowance q.walk q.run := by
  have hleft {bound index : Nat} {line : String} {record : Bool} {problem : Option Problem} {s : LineState}
      (hs : IsBalanced allowance s.walk s.run) :
      IsBalanced allowance (left bound index line record problem s).walk (left bound index line record problem s).run := by
    have hdepth := (follows_leave index line record problem [] s).depth
    obtain ⟨capture, hcapture⟩ := s.walk.captureLine_eq index line
    refine ⟨hdepth ▸ hs.includes, hdepth ▸ hs.evals, ?_⟩
    change (s.walk.captureLine index line).frames.length ≤ maxScopes
    rw [hcapture]
    exact hs.scopes
  cases h with
  | enters => exact ⟨hp.includes, hp.evals, hp.scopes⟩
  | executes hrest hrun => exact (comes_of_execute_ok hrest (fun _ => trivial) hrun).isBalanced hp
  | rewinds hrest hrun => exact hleft ((comes_of_execute_ok hrest (fun _ => trivial) hrun).isBalanced hp)
  | ends => exact hleft hp
  | fails hrest hrun => exact hleft ((comes_of_execute_error hrest (fun _ => trivial) hrun).isBalanced hp)

variable {w : Walk} {r : Run} {a : Allowance}

/-- Wherever a walk leads, the lines are nested no deeper than they may be. -/
theorem Visits.isBalanced {p : Stage} (h : Visits library allowance w r a p) (hstart : IsBalanced allowance w r) :
    IsBalanced a p.walk p.run := by
  induction h with
  | start => exact hstart
  | advances _ hstep ih => exact hstep.isBalanced ih
  | nests _ _ hgets _ hasm hwaits ih =>
    have ht := hgets.isBalanced depth_runBufferWithin ih
    exact (hwaits.isInside hasm).isBalanced ht

theorem Meets.isBalanced {t : LineState} (h : Meets library allowance w r a t) (hstart : IsBalanced allowance w r) :
    IsBalanced a t.walk t.run := by
  obtain ⟨bound, index, line, record, s, n, hvisits, hgets⟩ := h
  exact hgets.isBalanced depth_runBufferWithin (hvisits.isBalanced hstart)

/-! ### Relations -/

/-- Whether a relation is kept up by all that is done to a run, also on the way into
files and texts. -/
structure Run.IsDescent (R : Run → Run → Prop) : Prop extends Run.IsPassage R where
  inText : ∀ s : LineState, R s.run s.inText.run
  inFile : ∀ (r : Run) (path : Path), R r (r.inFile path)

variable {R : Run → Run → Prop}

theorem LineState.Brings.relates {env : Setting} {on : Region} {may : Doing → Prop} {s : LineState} {v : Walk}
    {depth : Depth} {x : Call} (h : s.Brings env on may v depth x) (hR : Run.IsDescent R) (henv : env.Relates R) :
    R s.run x.run := by
  cases h with
  | expansion _ hdeeds hx =>
    cases hx with
    | intro => exact hR.deeds henv hdeeds
  | inclusion _ hdeeds hx =>
    cases hx with
    | intro => exact hR.trans (hR.deeds henv hdeeds) (hR.inFile _ _)

theorem LineState.GetsTo.relates {bound includes index n m : Nat} {s t : LineState}
    (h : s.GetsTo library (runBufferWithin library bound) includes index n m t) (hR : Run.IsDescent R) :
    R s.run t.run := by
  have henv (m : Nat) : (lineSetting library (runBufferWithin library bound) includes index m).Relates R :=
    hR.lineSetting hR.runBufferWithin m
  induction h with
  | refl => exact hR.refl _
  | executes _ _ hrun ih =>
    have hstatement := LineM.of_wp_ok (hR.statement (henv _) _) hrun
    exact hR.trans ih hstatement
  | inlines _ hopens ih =>
    obtain ⟨spelling, column, -, hopen⟩ := hopens.opens
    obtain ⟨-, v, rfl, hdeeds⟩ := LineM.of_wp_ok LineM.wp_openText hopen
    exact hR.trans (hR.trans ih (hR.deeds (henv _) hdeeds)) (hR.inText v)

/-- **What every deed keeps up is kept up wherever a walk leads.** -/
theorem Visits.relates {p : Stage} (h : Visits library allowance w r a p) (hR : Run.IsDescent R) : R r p.run := by
  induction h with
  | start => exact hR.refl r
  | advances _ hstep ih => exact hR.trans ih (hstep.relates hR.toIsPassage)
  | nests _ _ hgets _ hasm hwaits ih =>
    have henv {env : Setting} {x : Call} : (env.upTo x).Relates R :=
      ⟨fun y _ hy => Setting.answer_upTo y hy ▸ hR.refl _, fun _ _ => hR.refl _⟩
    have hbrings := (hwaits.brings hasm).relates hR henv
    exact hR.trans (hR.trans ih (hgets.relates hR)) hbrings

theorem Meets.relates {t : LineState} (h : Meets library allowance w r a t) (hR : Run.IsDescent R) : R r t.run := by
  obtain ⟨bound, index, line, record, s, n, hvisits, hgets⟩ := h
  exact hR.trans (hvisits.relates hR) (hgets.relates hR)

end
end Asm6502
