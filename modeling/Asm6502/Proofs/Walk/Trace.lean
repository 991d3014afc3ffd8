/-
# The statements that a walk executes

A walk executes the statements of its lines one after the other, the statements of a
text on the line after the `ASM` that opens it, and those of the lines that a statement
brings in after that statement. They are listed here in this order, each with its place,
with the places of the macro calls whose lines it is among, and with the object code as
it stood before and after it. An included file is not a call.

Every walk that comes to an end has such a list.

Key definitions: `Executed`, `Task`, `Unfolds`, `Walk.afterLines`.
Key theorems: `LineState.Inlines.wp_statement`, `exists_unfolds_line`, `exists_unfolds_walk`.
-/
import Asm6502.Proofs.Memory.Emission
import Asm6502.Proofs.Walk.Straight

namespace Asm6502

open LineM

/-- A statement that was executed. -/
structure Executed where
  path : Option Path
  line : Nat
  /-- The macro calls around it, innermost first. -/
  calls : List SourceLine
  directive : Option Directive
  before : ObjectCode
  after : ObjectCode

/-- The place of a statement. -/
abbrev Executed.place (e : Executed) : SourceLine := (e.path, e.line)

/-- What is left to execute: a walk from here on, a line from here on, or the next
statement of a line. -/
inductive Task
  | walk (bound : Nat) (a : Allowance) (w : Walk) (r : Run)
  | line (bound index : Nat) (a : Allowance) (s : LineState)
  | statement (bound index : Nat) (a : Allowance) (s : LineState)

namespace LineState

/-- The place of a line at an index. -/
def place (s : LineState) (index : Nat) : SourceLine :=
  (s.run.filePath? s.walk.buffer.file, s.walk.buffer.firstLine + index)

/-- The next statement of a line as one that was executed. -/
def executed (s : LineState) (index : Nat) (calls : List SourceLine) (after : ObjectCode) : Executed where
  path := (s.place index).1
  line := (s.place index).2
  calls
  directive := directive? s.atStatement
  before := s.run.code
  after

/-- The calls around the lines that the next statement of a line brings in. -/
def callsInside (s : LineState) (index : Nat) (calls : List SourceLine) : List SourceLine :=
  if directive? s.atStatement = some .includeFile then calls else s.place index :: calls

end LineState

/-- Whether these statements are executed, in this order, by what is left to execute
inside some calls. -/
inductive Unfolds (library : Library) : List SourceLine → Task → List Executed → Prop
  | ended {calls : List SourceLine} {bound : Nat} {a : Allowance} {w : Walk} {r : Run}
      (hend : w.buffer.lines[w.next]? = none ∨ r.isCancelled = true) : Unfolds library calls (.walk bound a w r) []
  | steps {calls : List SourceLine} {bound : Nat} {a : Allowance} {w v : Walk} {r q : Run} {line : String}
      {es es' : List Executed} (hline : w.buffer.lines[w.next]? = some line) (hgoesOn : r.isCancelled = false)
      (hstep : w.stepLine library (runBufferWithin library bound) a r line = some (v, q))
      (hfirst : Unfolds library calls (.line bound w.next a (w.entering r line)) es)
      (hothers : Unfolds library calls (.walk bound a v q) es') :
      Unfolds library calls (.walk (bound + 1) a w r) (es ++ es')
  | done {calls : List SourceLine} {bound index : Nat} {a : Allowance} {s : LineState}
      (hrest : s.cursor.skipBlanks.rest = []) : Unfolds library calls (.line bound index a s) []
  | goesOn {calls : List SourceLine} {bound index : Nat} {a : Allowance} {s t : LineState} {es es' : List Executed}
      (hrest : s.cursor.skipBlanks.rest ≠ []) (hfirst : Unfolds library calls (.statement bound index a s) es)
      (hrun : LineM.statement (.ofLine library a bound index) s.atStatement = .ok true t)
      (hothers : Unfolds library calls (.line bound index a t) es') :
      Unfolds library calls (.line bound index a s) (es ++ es')
  | stops {calls : List SourceLine} {bound index : Nat} {a : Allowance} {s : LineState} {es : List Executed}
      (hrest : s.cursor.skipBlanks.rest ≠ []) (hfirst : Unfolds library calls (.statement bound index a s) es)
      (hstops : ∀ t, LineM.statement (.ofLine library a bound index) s.atStatement ≠ .ok true t) :
      Unfolds library calls (.line bound index a s) es
  /-- A statement by itself. -/
  | alone {calls : List SourceLine} {bound index : Nat} {a : Allowance} {s : LineState}
      (hasm : directive? s.atStatement ≠ some .asm)
      (halone : IsAlone LineM.statement (.ofLine library a bound index) s.atStatement) :
      Unfolds library calls (.statement bound index a s)
        [s.executed index calls (stateOf (LineM.statement (.ofLine library a bound index) s.atStatement)).run.code]
  /-- A statement with the lines that it brings in. -/
  | call {calls : List SourceLine} {bound index : Nat} {a : Allowance} {s : LineState} {x : Call} {es : List Executed}
      (hasm : directive? s.atStatement ≠ some .asm)
      (hwaits : Waits x LineM.statement (.ofLine library a bound index) s.atStatement)
      (hinner : Unfolds library (s.callsInside index calls)
        (.walk bound x.allowance (.start x.buffer x.frames) x.run) es) :
      Unfolds library calls (.statement bound index a s) (s.executed index calls x.run.code :: es)
  /-- An `ASM` that does not get to its text. -/
  | closed {calls : List SourceLine} {bound index : Nat} {a : Allowance} {s : LineState}
      (hasm : directive? s.atStatement = some .asm)
      (hcloses : ∀ text u, ¬ s.Inlines (.ofLine library a bound index) text u) :
      Unfolds library calls (.statement bound index a s)
        [s.executed index calls (stateOf (LineM.statement (.ofLine library a bound index) s.atStatement)).run.code]
  /-- An `ASM` with the statements of its text. -/
  | inline {calls : List SourceLine} {bound index includes evals : Nat} {s u : LineState} {text : String}
      {es : List Executed} (hinlines : s.Inlines (.ofLine library ⟨includes, evals + 1⟩ bound index) text u)
      (hinner : Unfolds library calls (.line bound index ⟨includes, evals⟩ ⟨.ofText text, #[], #[], u.walk, u.run⟩) es) :
      Unfolds library calls (.statement bound index ⟨includes, evals + 1⟩ s) (s.executed index calls u.run.code :: es)

section
variable {library : Library} {bound index : Nat} {a : Allowance} {s u : LineState} {text : String}

/-! ### Texts -/

/-- There is room for a text that is opened. -/
theorem LineState.Inlines.exists_evals (h : s.Inlines (.ofLine library a bound index) text u) :
    ∃ evals, a = ⟨a.includes, evals + 1⟩ := by
  obtain ⟨spelling, column, -, hopen⟩ := h.opens
  obtain ⟨⟨hevals, -⟩, -⟩ := of_wp_ok wp_openText hopen
  obtain ⟨evals, heq⟩ := Nat.exists_eq_succ_of_ne_zero hevals
  exact ⟨evals, congrArg (Allowance.mk a.includes) heq⟩

/-- An `ASM` comes to what the statements of its text come to, but for the depth. -/
theorem LineState.Inlines.wp_statement {includes evals : Nat} {Q : Walk → Run → Prop} {E : Stop → Walk → Run → Prop}
    (h : s.Inlines (.ofLine library ⟨includes, evals + 1⟩ bound index) text u)
    (htext : wp statements (.ofLine library ⟨includes, evals⟩ bound index) ⟨.ofText text, #[], #[], u.walk, u.run⟩
      (fun _ v => ∀ depth, Q v.walk { v.run with depth })
      fun stop v => ∀ stop' depth, (stop = .exhausted → stop' = .exhausted) → E stop' v.walk { v.run with depth }) :
    wp LineM.statement (.ofLine library ⟨includes, evals + 1⟩ bound index) s.atStatement (fun _ t => Q t.walk t.run)
      fun stop t => E stop t.walk t.run := by
  obtain ⟨spelling, column, hfind, hopen⟩ := h.opens
  have hasm : wp asm (.ofLine library ⟨includes, evals + 1⟩ bound index)
      { s with cursor := s.cursor.skipBlanks.skip spelling.length, parts := #[] } (fun _ t => Q t.walk t.run)
      fun stop t => E stop t.walk t.run := by
    refine wp_asm (Q := fun t => Q t.walk t.run) (fun stop t hfail => ?_) fun text' column' t hopen' _ _ => ?_
    · rw [hopen] at hfail
      cases hfail
    · rw [hopen] at hopen'
      cases hopen'
      unfold Setting.ofLine at htext
      have hruns := wp_runText (fun w r => ∀ depth, Q w { r with depth })
        (fun stop w r => ∀ stop' depth, (stop = .exhausted → stop' = .exhausted) → E stop' w { r with depth }) htext
      exact wp_mono hruns (fun _ _ hv => hv _) fun _ _ hv stop' hstop => hv stop' _ hstop
  exact wp_statement_directive h.executed hfind (wp_imp hasm fun _ _ ht _ => ht)

/-- A text is within the bound on lines if its `ASM` is. -/
theorem LineState.Inlines.ne_exhausted {includes evals : Nat}
    (h : s.Inlines (.ofLine library ⟨includes, evals + 1⟩ bound index) text u)
    (hends : ∀ t, LineM.statement (.ofLine library ⟨includes, evals + 1⟩ bound index) s.atStatement ≠ .error .exhausted t)
    (t : LineState) : statements (.ofLine library ⟨includes, evals⟩ bound index) ⟨.ofText text, #[], #[], u.walk, u.run⟩ ≠
      .error .exhausted t := by
  intro hexhausted
  have hstops : wp LineM.statement (.ofLine library ⟨includes, evals + 1⟩ bound index) s.atStatement
      (fun _ _ => False) fun stop _ => stop = .exhausted := by
    refine h.wp_statement (Q := fun _ _ => False) (E := fun stop _ _ => stop = .exhausted) ?_
    unfold wp
    rw [hexhausted]
    exact fun stop' _ hstop => hstop rfl
  cases hrun : LineM.statement (.ofLine library ⟨includes, evals + 1⟩ bound index) s.atStatement with
  | ok goesOn t => exact of_wp_ok hstops hrun
  | error stop t =>
    obtain rfl : stop = .exhausted := of_wp_error hstops hrun
    exact hends t hrun

/-! ### Every walk that comes to an end -/

/-- The lines that a statement brings in come to an end if the statement does. -/
theorem exists_walk_of_waits {x : Call} (hwaits : Waits x statement (.ofLine library a bound index) s)
    (hends : ∀ t, statement (.ofLine library a bound index) s ≠ .error .exhausted t) :
    ∃ result, walk library bound x.allowance (.start x.buffer x.frames) x.run = some result := by
  obtain ⟨before, after, -, hrun⟩ := hwaits
  cases hwalk : walk library bound x.allowance (.start x.buffer x.frames) x.run with
  | some result => exact ⟨result, rfl⟩
  | none =>
    have hanswer : (Setting.ofLine library a bound index).answer x = none := Option.map_eq_none_iff.mpr hwalk
    have hexhausted := hrun _ (.refl _)
    rw [hanswer] at hexhausted
    exact absurd hexhausted (hends before)

/-- A statement that comes to an end has its list if the lines that it brings in and
the texts that it opens have. -/
theorem exists_unfolds_statement
    (hwalks : ∀ a w r result calls, walk library bound a w r = some result →
      ∃ es, Unfolds library calls (.walk bound a w r) es)
    {calls : List SourceLine}
    (htexts : ∀ evals t, a.evals = evals + 1 →
      (∀ v, statements (.ofLine library ⟨a.includes, evals⟩ bound index) t ≠ .error .exhausted v) →
      ∃ es, Unfolds library calls (.line bound index ⟨a.includes, evals⟩ t) es)
    (hends : ∀ t, statement (.ofLine library a bound index) s.atStatement ≠ .error .exhausted t) :
    ∃ es, Unfolds library calls (.statement bound index a s) es := by
  by_cases hasm : directive? s.atStatement = some .asm
  · by_cases hinlines : ∃ text u, s.Inlines (.ofLine library a bound index) text u
    · obtain ⟨text, u, hinlines⟩ := hinlines
      obtain ⟨evals, ha⟩ := hinlines.exists_evals
      obtain ⟨includes, n⟩ := a
      obtain rfl : n = evals + 1 := congrArg Allowance.evals ha
      obtain ⟨es, hes⟩ := htexts evals ⟨.ofText text, #[], #[], u.walk, u.run⟩ rfl (hinlines.ne_exhausted hends)
      exact ⟨_, .inline hinlines hes⟩
    · exact ⟨_, .closed hasm fun text u h => hinlines ⟨text, u, h⟩⟩
  have honce : BringsOnce statement (.ofLine library a bound index) s.atStatement := bringsOnce_statement hasm
  rcases honce with halone | ⟨x, hwaits, -⟩
  · exact ⟨_, .alone hasm halone⟩
  obtain ⟨result, hwalk⟩ := exists_walk_of_waits hwaits hends
  obtain ⟨es, hes⟩ := hwalks _ _ _ result (s.callsInside index calls) hwalk
  exact ⟨_, .call hasm hwaits hes⟩

/-- So has a line. -/
theorem exists_unfolds_line
    (hwalks : ∀ a w r result calls, walk library bound a w r = some result →
      ∃ es, Unfolds library calls (.walk bound a w r) es)
    {includes evals : Nat}
    (hends : ∀ t, statements (.ofLine library ⟨includes, evals⟩ bound index) s ≠ .error .exhausted t)
    (calls : List SourceLine) : ∃ es, Unfolds library calls (.line bound index ⟨includes, evals⟩ s) es := by
  -- a text may nest one less than the line that it stands on
  induction evals using Nat.strong_induction_on generalizing s with
  | _ evals ihText =>
  -- and each statement leaves less of its line
  induction hlength : s.cursor.rest.length using Nat.strong_induction_on generalizing s with
  | _ length ih =>
  subst hlength
  by_cases hrest : s.cursor.skipBlanks.rest = []
  · exact ⟨[], .done hrest⟩
  rw [statements_eq Setting.isTame_ofLine, if_neg hrest] at hends
  have hfirst : ∃ es, Unfolds library calls (.statement bound index ⟨includes, evals⟩ s) es := by
    refine exists_unfolds_statement hwalks (fun k t hk ht => ?_) fun t ht => ?_
    · exact ihText k (Nat.lt_of_lt_of_eq (Nat.lt_succ_self k) hk.symm) ht
    · rw [ht] at hends
      exact hends t rfl
  obtain ⟨es, hes⟩ := hfirst
  by_cases hgoesOn : ∃ t, statement (.ofLine library ⟨includes, evals⟩ bound index) s.atStatement = .ok true t
  · obtain ⟨t, hrun⟩ := hgoesOn
    rw [hrun] at hends
    obtain ⟨es', hes'⟩ := ih _ (rest_lt_of_statement Setting.isTame_ofLine hrest hrun) hends rfl
    exact ⟨es ++ es', .goesOn hrest hes hrun hes'⟩
  · exact ⟨es, .stops hrest hes fun t ht => hgoesOn ⟨t, ht⟩⟩

theorem ends_of_stepLine {w : Walk} {r : Run} {line : String} {left : Walk × Run}
    (hstep : w.stepLine library (runBufferWithin library bound) a r line = some left) (t : LineState) :
    statements (.ofLine library a bound w.next) (w.entering r line) ≠ .error .exhausted t := by
  intro hexhausted
  unfold Setting.ofLine at hexhausted
  simp only [Walk.stepLine, runLine_eq] at hstep
  rw [Walk.entering] at hexhausted
  rw [hexhausted] at hstep
  cases hstep

/-- **Every walk that comes to an end has its list.** -/
theorem exists_unfolds_walk {w : Walk} {r : Run} {result : Walk × Run} (calls : List SourceLine)
    (hwalk : walk library bound a w r = some result) : ∃ es, Unfolds library calls (.walk bound a w r) es := by
  induction bound generalizing a w r result calls with
  | zero => cases hwalk
  | succ bound ih =>
    cases hline : w.buffer.lines[w.next]? with
    | none => exact ⟨[], .ended (.inl hline)⟩
    | some line =>
      cases hgoesOn : r.isCancelled with
      | true => exact ⟨[], .ended (.inr hgoesOn)⟩
      | false =>
        rw [Stage.walk_of_line hline hgoesOn] at hwalk
        cases hstep : w.stepLine library (runBufferWithin library bound) a r line with
        | none =>
          rw [hstep] at hwalk
          cases hwalk
        | some left =>
          rw [hstep] at hwalk
          obtain ⟨es, hes⟩ := exists_unfolds_line (fun a w r result calls h => ih calls h) (ends_of_stepLine hstep) calls
          obtain ⟨es', hes'⟩ := ih calls hwalk
          exact ⟨es ++ es', .steps hline hgoesOn hstep hes hes'⟩

/-! ### Lists in parts -/

/-- A walk and its run after a number of lines. There is none if the walk ends before
that or does not get there within the bound. -/
def Walk.afterLines (library : Library) (a : Allowance) : Nat → Nat → Walk → Run → Option (Walk × Run)
  | 0, _, w, r => some (w, r)
  | _ + 1, 0, _, _ => none
  | n + 1, bound + 1, w, r =>
    if r.isCancelled then none
    else
      (w.buffer.lines[w.next]?).bind fun line =>
        (w.stepLine library (runBufferWithin library bound) a r line).bind fun x =>
          Walk.afterLines library a n bound x.1 x.2

/-- The lines before those that are left have their list too. -/
theorem exists_unfolds_after {n : Nat} {w v : Walk} {r q : Run} {calls : List SourceLine} {es : List Executed}
    (hafter : Walk.afterLines library a n (bound + n) w r = some (v, q))
    (hes : Unfolds library calls (.walk bound a v q) es) :
    ∃ earlier, Unfolds library calls (.walk (bound + n) a w r) (earlier ++ es) := by
  induction n generalizing w r with
  | zero =>
    cases hafter
    exact ⟨[], hes⟩
  | succ n ih =>
    rw [← Nat.add_assoc, Walk.afterLines] at hafter
    split_ifs at hafter with hstop
    obtain ⟨line, hline, hafter⟩ := Option.bind_eq_some_iff.mp hafter
    obtain ⟨x, hstep, hafter⟩ := Option.bind_eq_some_iff.mp hafter
    obtain ⟨earlier, hothers⟩ := ih hafter
    obtain ⟨first, hfirst⟩ := exists_unfolds_line (fun _ _ _ _ calls h => exists_unfolds_walk calls h)
      (ends_of_stepLine hstep) calls
    refine ⟨first ++ earlier, ?_⟩
    rw [List.append_assoc]
    exact .steps hline (by simpa using hstop) hstep hfirst hothers

/-- A statement that comes to an end with no room for other lines is one by itself. -/
theorem isAlone_of_ends (hasm : directive? s ≠ some .asm)
    (hends : ∀ t, statement (.ofLine library a 0 index) s ≠ .error .exhausted t) :
    IsAlone statement (.ofLine library a bound index) s := by
  have honce : BringsOnce statement (.ofLine library a bound index) s := bringsOnce_statement hasm
  rcases honce with halone | ⟨x, ⟨before, after, -, hwaits⟩, -⟩
  · exact halone
  · exact absurd (hwaits (.ofLine library a 0 index) ⟨rfl, rfl, rfl⟩) (hends before)

/-- A line with nothing after its first statement. -/
theorem unfolds_line_single {t : LineState} {calls : List SourceLine} {es : List Executed}
    (hrest : s.cursor.skipBlanks.rest ≠ []) (hfirst : Unfolds library calls (.statement bound index a s) es)
    (hrun : statement (.ofLine library a bound index) s.atStatement = .ok true t)
    (hend : t.cursor.skipBlanks.rest = []) : Unfolds library calls (.line bound index a s) es := by
  have hline := Unfolds.goesOn hrest hfirst hrun (.done hend)
  rwa [List.append_nil] at hline

end
end Asm6502
