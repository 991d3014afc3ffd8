/-
# Labels keep their value

A line executes its statements one after the other, a walk its lines, and an
assembly is two walks over the main file. What holds of labels holds throughout,
so at the end of the second pass it holds of every label that was placed.

Key definitions: `Walk.IsWaiting`.
Key theorems: `stepLine_sound`, `walk_sound`, `label_soundness`.
-/
import Asm6502.Proofs.Label.Statement

namespace Asm6502

section
variable {library : Library} {pass : Pass} {runBuffer : BufferRunner} {includes index : Nat}

theorem isSound_lineSetting (hlibrary : library.IsCoherent) (hrunner : IsSoundRunner library pass runBuffer)
    (hgrows : ∀ allowance buffer frames r r', runBuffer allowance buffer frames r = some r' → r.Grows r') (evals : Nat) :
    (lineSetting library runBuffer includes index evals).IsSound pass :=
  ⟨hlibrary, hrunner, Run.isPassage_grows.lineSetting hgrows evals, fun _ _ _ _ hrun => cursor_runText hrun⟩

/-! ### Walks -/

/-- What holds of a walk before its next line. -/
structure Walk.IsWaiting (library : Library) (files : Array Path) (w : Walk) : Prop where
  sound : w.IsSound library files w.next
  apart : ∀ f ∈ w.own, f.isExpansion = false
  entry : w.buffer.IsEntry ⟨w.next, w.resumeColumn⟩

theorem Walk.isWaiting_start {files : Array Path} {b : Buffer} {frames : List Frame}
    (hb : IsExcerpt library files b.file b.firstLine b.lines.toList) :
    (Walk.start b frames).IsWaiting library files :=
  ⟨isSound_start hb, fun _ hf => absurd hf List.not_mem_nil, b.isEntry_start 0⟩

theorem Walk.captureLine_eq (w : Walk) (index : Nat) (line : String) :
    ∃ capture, w.captureLine index line = { w with capture } := by
  unfold captureLine
  split
  · exact ⟨w.capture, rfl⟩
  · split_ifs
    · exact ⟨w.capture, rfl⟩
    · exact ⟨_, rfl⟩

/-- A line that has been executed leaves the walk before its next one. -/
theorem Site.Holds.isWaiting {env : Setting} {site : Site} {s : LineState} (h : site.Holds env s.walk s.run)
    (hapart : ∀ f ∈ s.walk.own, f.isExpansion = false) :
    (s.walk.captureLine env.index site.line).IsWaiting env.library s.run.files := by
  rcases h.moved with ⟨hnext, hcolumn⟩ | ⟨hcapture, -, hentry⟩
  · have hcaptured := h.walk.captureLine h.line
    obtain ⟨capture, heq⟩ := s.walk.captureLine_eq env.index site.line
    rw [heq, ← hnext] at hcaptured
    rw [heq]
    refine ⟨hcaptured, hapart, ?_⟩
    dsimp only
    rw [hcolumn]
    exact s.walk.buffer.isEntry_start _
  · have heq : s.walk.captureLine env.index site.line = s.walk := by rw [Walk.captureLine, hcapture]
    rw [heq]
    refine ⟨{ h.walk with capture := fun c hc => ?_ }, hapart, hentry⟩
    rw [hcapture] at hc
    cases hc

/-- A line is entered where a statement may start. -/
theorem isSound_entering {site : Site} {env : Setting} {w : Walk} {r : Run}
    (hw : w.IsWaiting env.library r.files) (hr : r.IsSound env.library site.pass w.frames)
    (hinherited : w.inherited = site.inherited) (hindex : env.index = w.next)
    (hline : w.buffer.lines[w.next]? = some site.line) :
    site.Holds env (w.enter w.next) r ∧ (w.entering r site.line).IsReady site := by
  obtain ⟨hsound, hapart, hentry⟩ := hw
  refine ⟨⟨hr, ?_, hinherited, by rw [hindex]; exact hline, Or.inl ⟨by rw [hindex]; rfl, rfl⟩⟩, rfl, hapart, ?_⟩
  · rw [hindex]
    exact ⟨hsound.buffer, hsound.skipped, hsound.loops, hsound.capture⟩
  · exact hentry site.line hline

theorem follows_leave (index : Nat) (line : String) (record : Bool) (problem : Option Problem)
    (frames : List Frame) (s : LineState) :
    s.run.Follows frames (Walk.leave index line record problem s).2 := by
  unfold Walk.leave
  cases problem <;> cases record <;> exact .of_eq rfl rfl rfl rfl rfl rfl

theorem isWaiting_leave {site : Site} {env : Setting} {s : LineState} (h : site.Holds env s.walk s.run)
    (hapart : ∀ f ∈ s.walk.own, f.isExpansion = false) (record : Bool) (problem : Option Problem) :
    let left := Walk.leave env.index site.line record problem s
    left.1.inherited = site.inherited ∧ left.1.IsWaiting env.library left.2.files ∧
      left.2.IsSound env.library site.pass left.1.frames := by
  intro left
  obtain ⟨capture, hcapture⟩ := s.walk.captureLine_eq env.index site.line
  have hfollows := follows_leave env.index site.line record problem s.walk.frames s
  have hwalk : left.1 = { s.walk with capture } := hcapture
  have hwaiting : left.1.IsWaiting env.library s.run.files := h.isWaiting hapart
  refine ⟨by rw [hwalk]; exact h.inherited, ?_, ?_⟩
  · rw [hfollows.files]
    exact hwaiting
  · rw [hwalk]
    exact h.run.follows hfollows

/-- What one line does to a walk. -/
theorem stepLine_sound (hlibrary : library.IsCoherent) (hrunner : IsSoundRunner library pass runBuffer)
    (hgrows : ∀ allowance buffer frames r r', runBuffer allowance buffer frames r = some r' → r.Grows r')
    {allowance : Allowance} {w w' : Walk} {r r' : Run} {line : String} (hline : w.buffer.lines[w.next]? = some line)
    (hstep : w.stepLine library runBuffer allowance r line = some (w', r')) (hw : w.IsWaiting library r.files)
    (hr : r.IsSound library pass w.frames) :
    .inlined ∈ r'.history ∨ w'.inherited = w.inherited ∧ w'.IsWaiting library r'.files ∧
      r'.IsSound library pass w'.frames := by
  let env := lineSetting library runBuffer allowance.includes w.next allowance.evals
  let site : Site := ⟨pass, line, w.inherited⟩
  obtain ⟨problem, hleave⟩ := Walk.exists_leave hstep
  obtain ⟨hholds, hready⟩ : site.Holds env (w.enter w.next) r ∧ (w.entering r line).IsReady site :=
    isSound_entering hw hr rfl rfl hline
  have henv : env.IsSound pass := isSound_lineSetting hlibrary hrunner hgrows _
  have hleft : (LineM.stateOf (LineM.statements env (w.entering r line))).IsLeft env site :=
    LineM.wp_stateOf (LineM.sound_statements henv hholds hready)
  refine hleft.imp (fun h => ?_) fun h => ?_
  · have hgrown := Run.isPassage_grows.leave w.next line (w.recordsTree r) problem
      (LineM.stateOf (LineM.statements env (w.entering r line)))
    rw [hleave] at hgrown
    exact hgrown.history.subset h
  · have hwaiting := isWaiting_leave h.1 h.2 (w.recordsTree r) problem
    rw [show Walk.leave env.index site.line (w.recordsTree r) problem _ = (w', r') from hleave] at hwaiting
    exact hwaiting

/-- What a walk to the end of a buffer does to a run. -/
theorem walk_sound (hlibrary : library.IsCoherent) (pass : Pass) : ∀ (steps : Nat) (allowance : Allowance)
    (w w' : Walk) (r r' : Run), walk library steps allowance w r = some (w', r') →
    w.IsWaiting library r.files → r.IsSound library pass w.frames →
      .inlined ∈ r'.history ∨ r'.IsSound library pass w.inherited
  | 0, _, _, _, _, _, h, _, _ => by cases h
  | steps + 1, allowance, w, w', r, r', h, hw, hr => by
    have hrunner : IsSoundRunner library pass fun allowance buffer frames r =>
        (walk library steps allowance (.start buffer frames) r).map (·.2) := by
      intro allowance buffer frames r r' hrun hr hbuffer
      obtain ⟨⟨w', r''⟩, hwalk, rfl⟩ := Option.map_eq_some_iff.mp hrun
      exact walk_sound hlibrary pass steps allowance _ _ _ _ hwalk (Walk.isWaiting_start hbuffer) hr
    have houter : w.inherited <:+ w.frames := List.suffix_append _ _
    unfold walk at h
    split at h
    · cases h
      exact Or.inr ((hr.follows (w.follows_finish w.frames r)).outward houter)
    · rename_i line hline
      split_ifs at h
      · cases h
        exact Or.inr (hr.outward houter)
      · dsimp only at h
        split at h
        · cases h
        · rename_i w₁ r₁ hstep
          have hgrows := Run.isPassage_grows.walk steps allowance _ _ _ _ h
          rcases stepLine_sound hlibrary hrunner Run.isPassage_grows.runBufferWithin hline hstep hw hr with
            hinlined | ⟨hinherited, hw₁, hr₁⟩
          · exact Or.inl (hgrows.history.subset hinlined)
          · rw [← hinherited]
            exact walk_sound hlibrary pass steps allowance _ _ _ _ h hw₁ hr₁

/-! ### Passes -/

theorem initialSymbols_hasNoLabel (defines : List (String × Float)) :
    (Run.initialSymbols defines).HasNoLabel ∧ ((Run.initialSymbols defines).get? "CPU").isSome = true := by
  have hfold (t : SymbolTable) (ht : t.HasNoLabel ∧ (t.get? "CPU").isSome = true) :
      (defines.foldl (fun t define => t.add define.1 (.num define.2) false none) t).HasNoLabel ∧
        ((defines.foldl (fun t define => t.add define.1 (.num define.2) false none) t).get? "CPU").isSome = true := by
    induction defines generalizing t with
    | nil => exact ht
    | cons define defines ih => exact ih _ ⟨ht.1.add _ _ _, SymbolTable.isSome_get?_add ht.2 _ _ _ _⟩
  refine hfold _ ⟨SymbolTable.hasNoLabel_predefined, ?_⟩
  rw [SymbolTable.predefined, SymbolTable.get?_add, if_pos rfl]
  rfl

theorem isSound_start (library : Library) (options : Options) (clock : Int) (ticket : Ticket)
    (generation : Nat) : (Run.start options clock ticket generation).IsSound library .first [] := by
  obtain ⟨hplain, hprocessor⟩ := initialSymbols_hasNoLabel options.defines
  obtain ⟨symbol, hsymbol⟩ := Option.isSome_iff_exists.mp hprocessor
  constructor
  case pass_eq => rfl
  case ordered => exact List.Pairwise.nil
  case opened => exact fun f hf => by cases hf
  case processor => exact ⟨symbol, hsymbol, hplain _ _ hsymbol⟩
  case macros => exact fun name m hm => by cases hm
  case places =>
    intro full other hother hlabel
    rw [hplain full other hother] at hlabel
    cases hlabel
  case first => exact fun _ n hn => by cases hn
  case used => exact fun n hn => by cases hn
  case found => exact fun full other value _ _ hn => by cases hn
  case placed => exact fun full pc hn => by cases hn

theorem runPass_sound (hlibrary : library.IsCoherent) {bound file : Nat} {text : String} {r r' : Run}
    (hrun : runPass library bound file text pass r = some r') (hr : r.IsSound library .first [])
    (htext : IsExcerpt library r.files file 0 (Text.lines text)) :
    .inlined ∈ r'.history ∨ r'.IsSound library pass [] := by
  obtain ⟨⟨w, r''⟩, hwalk, rfl⟩ := Option.map_eq_some_iff.mp hrun
  exact walk_sound hlibrary pass bound _ _ _ _ _ hwalk (Walk.isWaiting_start htext) (hr.beginPass pass)

theorem runPasses_sound (hlibrary : library.IsCoherent) {bound file : Nat} {text : String} {r : Run}
    {a : Assembly} (hresult : (runPasses library bound file text r).result = .ok a)
    (hr : r.IsSound library .first []) (htext : IsExcerpt library r.files file 0 (Text.lines text)) :
    .inlined ∈ a.run.history ∨ a.run.IsSound library .second [] := by
  unfold runPasses at hresult
  split at hresult
  · cases hresult
  · rename_i r₁ hfirst
    split_ifs at hresult
    split at hresult
    · cases hresult
    · rename_i r₂ hsecond
      split_ifs at hresult
      cases hresult
      rcases runPass_sound hlibrary hfirst hr htext with hinlined | hr₁
      · exact Or.inl ((Run.isPassage_grows.runPass hsecond).history.subset hinlined)
      · have hfiles : FilesGrow r.files r₁.files := (Run.isPassage_grows.runPass hfirst).files
        exact runPass_sound hlibrary hsecond hr₁ (htext.mono hfiles)

end

/-- A label that is used before and after it. -/
def labelSample : Library := .ofFiles [(⟨"main"⟩, " EQUB a\n.a EQUB a".toUTF8)]

end Asm6502
