/-
# A walk, statement by statement

A walk is somewhere between two lines or between two statements of a line. From
there it advances by one step at a time: it enters its next line, executes one
statement, leaves a line at its end, at a problem or where a loop has moved it
back. Every step leads to the same result, and a walk that comes to an end does
so in finitely many of them.

The lines that a statement brings in belong to the step of that statement.

Key definitions: `Setting.ofLine`, `Stage`, `Stage.Advances`, `Stage.advance?`,
`Stage.outcome`, `Stage.Ends`.
Key theorems: `Run.isPassage_depth`, `Setting.isTame_ofLine`, `LineM.statements_eq`,
`Stage.advances_iff`, `Stage.Advances.outcome_eq`, `Stage.exists_ends`.
-/
import Asm6502.Proofs.Label.Soundness
import Asm6502.Proofs.Statement.Effect

namespace Asm6502

/-- The setting in which a walk executes the line at an index, when it has a
number of lines left after it. -/
def Setting.ofLine (library : Library) (allowance : Allowance) (bound index : Nat) : Setting :=
  lineSetting library (runBufferWithin library bound) allowance.includes index allowance.evals

variable {library : Library} {allowance : Allowance} {bound index : Nat}

/-! ### The depth of nesting -/

theorem isTame_lineSetting {runBuffer : BufferRunner} {includes : Nat}
    (hrunner : ∀ allowance buffer frames r r', runBuffer allowance buffer frames r = some r' →
      r'.depth = r.depth) :
    ∀ evals, (lineSetting library runBuffer includes index evals).IsTame
  | 0 => ⟨hrunner, fun _ s => LineState.Comes.refl s⟩
  | evals + 1 => by
    refine ⟨hrunner, fun text s => ?_⟩
    have hinner : (lineSetting library runBuffer includes index evals).IsTame :=
      isTame_lineSetting hrunner evals
    have hstatements := LineM.does_statements (s := ⟨.ofText text, #[], #[], s.walk, s.run⟩) hinner
    change LineM.wp (fun _ => runTextWith (runLine library runBuffer includes index evals) text) _ s _ _
    rw [LineM.wp, runTextWith, runLine_eq]
    cases hrun : LineM.statements (lineSetting library runBuffer includes index evals)
      ⟨.ofText text, #[], #[], s.walk, s.run⟩ with
    | ok _ t =>
      have hcomes := LineM.of_wp_ok hstatements hrun
      exact ⟨⟨hcomes.path, hcomes.depth⟩, rfl⟩
    | error stop t =>
      have hcomes := LineM.of_wp_error hstatements hrun
      exact ⟨hcomes.path, hcomes.depth⟩

theorem Run.isPassage_depth : Run.IsPassage fun r r' => r'.depth = r.depth where
  refl _ := rfl
  trans h h' := h'.trans h
  report _ _ _ := rfl
  recordTree _ _ _ _ := rfl
  deed henv h := by
    cases h with
    | opened _ hopen =>
      obtain ⟨-, rfl⟩ := Walk.eq_of_openScope hopen
      rfl
    | looped _ _ _ _ _ hstart =>
      obtain ⟨-, rfl⟩ := Walk.eq_of_startLoop hstart
      rfl
    | stepped _ hstep =>
      obtain ⟨f, own, l, -, -, ⟨-, rfl⟩ | ⟨l', -, -, rfl⟩⟩ := Walk.eq_of_stepLoop hstep <;> rfl
    | ran _ hx hrun =>
      cases hx with
      | intro => exact henv.answer _ _ hrun
    | @added w r path =>
      rw [Run.addFile_eq]
    | @included w r r' x _ hx hrun =>
      cases hx with
      | @intro path =>
        have hdepth : r'.depth = (r.inFile path).depth := henv.answer _ _ hrun
        simp only [Run.leaveFile, hdepth]
        rw [Run.inFile, Run.addFile_eq]
        rfl
    | @inlined s _ _ text =>
      have hdepth := henv.text text s.inText
      simp only [Run.leaveText, hdepth]
      rfl
    | _ => rfl

theorem depth_runBufferWithin (allowance : Allowance) (buffer : Buffer) (frames : List Frame) (r r' : Run)
    (h : runBufferWithin library bound allowance buffer frames r = some r') : r'.depth = r.depth :=
  Run.isPassage_depth.runBufferWithin _ _ _ _ _ h

theorem Setting.isTame_ofLine : (Setting.ofLine library allowance bound index).IsTame :=
  isTame_lineSetting depth_runBufferWithin _

/-- What every deed keeps up holds of the lines that a walk brings in. -/
theorem Run.IsPassage.ofLine {R : Run → Run → Prop} (h : Run.IsPassage R) :
    (Setting.ofLine library allowance bound index).Relates R := h.lineSetting h.runBufferWithin _

/-! ### The statements of a line -/

namespace LineM

variable {env : Setting}

/-- One statement and those after it. -/
theorem statementsFrom_succ (n : Nat) (s : LineState) :
    statementsFrom (n + 1) env s =
      if s.cursor.skipBlanks.rest = [] then .ok () { s with cursor := s.cursor.skipBlanks }
      else
        match statement env { s with cursor := s.cursor.skipBlanks } with
        | .ok true t => statementsFrom n env t
        | .ok false t => .ok () t
        | .error stop t => .error stop t := by
  have hif : statementsFrom (n + 1) env s =
      (if !s.cursor.skipBlanks.rest.isEmpty then (do if ← statement then statementsFrom n) else pure () :
        LineM Unit) env { s with cursor := s.cursor.skipBlanks } := rfl
  rw [hif]
  by_cases hrest : s.cursor.skipBlanks.rest = []
  · rw [if_pos hrest, hrest]
    rfl
  · have hsome : (!s.cursor.skipBlanks.rest.isEmpty) = true := by simpa using hrest
    rw [if_neg hrest, if_pos hsome]
    change (EStateM.bind (statement env) fun goesOn =>
      (if goesOn = true then statementsFrom n else pure () : LineM Unit) env) _ = _
    unfold EStateM.bind
    cases hrun : statement env { s with cursor := s.cursor.skipBlanks } with
    | ok goesOn t => cases goesOn <;> rfl
    | error stop t => rfl

/-- A statement leaves less of the line. -/
theorem rest_lt_of_statement (henv : env.IsTame) {s t : LineState} {goesOn : Bool}
    (hrest : s.cursor.skipBlanks.rest ≠ [])
    (hrun : statement env { s with cursor := s.cursor.skipBlanks } = .ok goesOn t) :
    t.cursor.rest.length < s.cursor.rest.length := by
  have hstatement : DoesOn env True { s with cursor := s.cursor.skipBlanks.skip 1 } statement
      { s with cursor := s.cursor.skipBlanks } := does_statement henv hrest fun _ => trivial
  have hskip : t.cursor.rest.length ≤ (s.cursor.skipBlanks.skip 1).rest.length :=
    Cursor.Reaches.length_le (of_wp_ok hstatement hrun).reaches
  have hone : (s.cursor.skipBlanks.skip 1).rest.length < s.cursor.skipBlanks.rest.length := by
    simp only [Cursor.skip, List.length_drop]
    have := List.length_pos_iff.mpr hrest
    omega
  have hblanks : s.cursor.skipBlanks.rest.length ≤ s.cursor.rest.length :=
    s.cursor.length_skipBlanks_le
  omega

/-- A line has no more statements than characters, so further steps change
nothing. -/
theorem statementsFrom_congr (henv : env.IsTame) : ∀ (n m : Nat) (s : LineState),
    s.cursor.rest.length < n → s.cursor.rest.length < m → statementsFrom n env s = statementsFrom m env s
  | 0, _, _, hn, _ => by omega
  | _ + 1, 0, _, _, hm => by omega
  | n + 1, m + 1, s, hn, hm => by
    rw [statementsFrom_succ, statementsFrom_succ]
    by_cases hrest : s.cursor.skipBlanks.rest = []
    · rw [if_pos hrest, if_pos hrest]
    rw [if_neg hrest, if_neg hrest]
    cases hrun : statement env { s with cursor := s.cursor.skipBlanks } with
    | error stop t => rfl
    | ok goesOn t =>
      have hless := rest_lt_of_statement henv hrest hrun
      cases goesOn with
      | false => rfl
      | true => exact statementsFrom_congr henv n m t (by omega) (by omega)

theorem statements_eq (henv : env.IsTame) (s : LineState) :
    statements env s =
      if s.cursor.skipBlanks.rest = [] then .ok () { s with cursor := s.cursor.skipBlanks }
      else
        match statement env { s with cursor := s.cursor.skipBlanks } with
        | .ok true t => statements env t
        | .ok false t => .ok () t
        | .error stop t => .error stop t := by
  have hstatements (t : LineState) : statements env t = statementsFrom (t.cursor.rest.length + 1) env t := rfl
  rw [hstatements, statementsFrom_succ]
  by_cases hrest : s.cursor.skipBlanks.rest = []
  · rw [if_pos hrest, if_pos hrest]
  rw [if_neg hrest, if_neg hrest]
  cases hrun : statement env { s with cursor := s.cursor.skipBlanks } with
  | error stop t => rfl
  | ok goesOn t =>
    have hless := rest_lt_of_statement henv hrest hrun
    cases goesOn with
    | false => rfl
    | true => exact statementsFrom_congr henv _ _ t (by omega) (by omega)

end LineM

/-! ### Stages -/

/-- Where a walk is: before its next line, or before the next statement of the
line at an index. It has a bound on the lines that it may still execute. -/
inductive Stage
  | before (bound : Nat) (w : Walk) (r : Run)
  | inside (bound index : Nat) (line : String) (record : Bool) (s : LineState)

namespace Stage

def walk : Stage → Walk
  | before _ w _ => w
  | inside _ _ _ _ s => s.walk

def run : Stage → Run
  | before _ _ r => r
  | inside _ _ _ _ s => s.run

/-- Before the next line of a walk, once a line has been left. -/
def left (bound index : Nat) (line : String) (record : Bool) (problem : Option Problem) (s : LineState) : Stage :=
  let (w, r) := Walk.leave index line record problem s
  before bound w r

/-- What the next statement of the line at hand comes to. -/
def execute (library : Library) (allowance : Allowance) (bound index : Nat) (s : LineState) :
    EStateM.Result Stop LineState Bool :=
  LineM.statement (.ofLine library allowance bound index) { s with cursor := s.cursor.skipBlanks }

/-- One step of a walk. -/
inductive Advances (library : Library) (allowance : Allowance) : Stage → Stage → Prop
  | enters {bound : Nat} {w : Walk} {r : Run} {line : String} (hline : w.buffer.lines[w.next]? = some line)
      (hgoesOn : r.isCancelled = false) :
      Advances library allowance (before (bound + 1) w r)
        (inside bound w.next line (w.recordsTree r) (w.entering r line))
  | executes {bound index : Nat} {line : String} {record : Bool} {s t : LineState}
      (hrest : s.cursor.skipBlanks.rest ≠ []) (hrun : execute library allowance bound index s = .ok true t) :
      Advances library allowance (inside bound index line record s) (inside bound index line record t)
  /-- A loop goes on, so the rest of the line is not executed. -/
  | rewinds {bound index : Nat} {line : String} {record : Bool} {s t : LineState}
      (hrest : s.cursor.skipBlanks.rest ≠ []) (hrun : execute library allowance bound index s = .ok false t) :
      Advances library allowance (inside bound index line record s) (left bound index line record none t)
  | ends {bound index : Nat} {line : String} {record : Bool} {s : LineState}
      (hrest : s.cursor.skipBlanks.rest = []) :
      Advances library allowance (inside bound index line record s)
        (left bound index line record none { s with cursor := s.cursor.skipBlanks })
  | fails {bound index : Nat} {line : String} {record : Bool} {s t : LineState} {problem : Problem}
      (hrest : s.cursor.skipBlanks.rest ≠ [])
      (hrun : execute library allowance bound index s = .error (.problem problem) t) :
      Advances library allowance (inside bound index line record s)
        (left bound index line record (some problem) t)

/-- The next stage, none at the end of a walk and beyond the bound on lines. -/
def advance? (library : Library) (allowance : Allowance) : Stage → Option Stage
  | before 0 _ _ => none
  | before (bound + 1) w r =>
    match w.buffer.lines[w.next]? with
    | none => none
    | some line =>
      if r.isCancelled then none
      else some (inside bound w.next line (w.recordsTree r) (w.entering r line))
  | inside bound index line record s =>
    if s.cursor.skipBlanks.rest = [] then
      some (left bound index line record none { s with cursor := s.cursor.skipBlanks })
    else
      match execute library allowance bound index s with
      | .ok true t => some (inside bound index line record t)
      | .ok false t => some (left bound index line record none t)
      | .error (.problem problem) t => some (left bound index line record (some problem) t)
      | .error .exhausted _ => none

theorem advances_iff {p q : Stage} :
    Advances library allowance p q ↔ p.advance? library allowance = some q := by
  constructor
  · intro h
    cases h with
    | enters hline hgoesOn => simp [advance?, hline, hgoesOn]
    | executes hrest hrun => simp [advance?, hrest, hrun]
    | rewinds hrest hrun => simp [advance?, hrest, hrun]
    | ends hrest => simp [advance?, hrest]
    | fails hrest hrun => simp [advance?, hrest, hrun]
  · intro h
    rcases p with ⟨_ | bound, w, r⟩ | ⟨bound, index, line, record, s⟩
    · cases h
    · cases hline : w.buffer.lines[w.next]? with
      | none => simp [advance?, hline] at h
      | some line =>
        cases hcancelled : r.isCancelled with
        | true => simp [advance?, hline, hcancelled] at h
        | false =>
          simp only [advance?, hline, hcancelled] at h
          obtain rfl := Option.some.inj h
          exact .enters hline hcancelled
    · by_cases hrest : s.cursor.skipBlanks.rest = []
      · rw [advance?, if_pos hrest] at h
        obtain rfl := Option.some.inj h
        exact .ends hrest
      · rw [advance?, if_neg hrest] at h
        rcases hrun : execute library allowance bound index s with ⟨_ | _, t⟩ | ⟨problem | _, t⟩ <;>
          rw [hrun] at h
        · obtain rfl := Option.some.inj h
          exact .rewinds hrest hrun
        · obtain rfl := Option.some.inj h
          exact .executes hrest hrun
        · obtain rfl := Option.some.inj h
          exact .fails hrest hrun
        · cases h

/-- There is one way to advance. -/
theorem Advances.unique {p q q' : Stage} (h : Advances library allowance p q)
    (h' : Advances library allowance p q') : q = q' := by
  rw [advances_iff] at h h'
  exact Option.some.inj (h.symm.trans h')

/-- What every deed keeps up a step keeps up. -/
theorem Advances.relates {R : Run → Run → Prop} (hR : Run.IsPassage R) {p q : Stage}
    (h : Advances library allowance p q) : R p.run q.run := by
  have hexecute (bound index : Nat) (s : LineState) : LineM.wp LineM.statement (.ofLine library allowance bound index)
      { s with cursor := s.cursor.skipBlanks } (fun _ t => R s.run t.run) fun _ t => R s.run t.run :=
    hR.statement hR.ofLine { s with cursor := s.cursor.skipBlanks }
  have hleft (bound index : Nat) (line : String) (record : Bool) (problem : Option Problem) (s : LineState) :
      R s.run (left bound index line record problem s).run := hR.leave index line record problem s
  cases h with
  | enters => exact hR.refl _
  | executes hrest hrun =>
    have hs := LineM.of_wp_ok (hexecute _ _ _) hrun
    exact hs
  | rewinds hrest hrun =>
    have hs := LineM.of_wp_ok (hexecute _ _ _) hrun
    exact hR.trans hs (hleft _ _ _ _ _ _)
  | @ends bound index line record s hrest =>
    have hs := hleft bound index line record none { s with cursor := s.cursor.skipBlanks }
    exact hs
  | fails hrest hrun =>
    have hs := LineM.of_wp_error (hexecute _ _ _) hrun
    exact hR.trans hs (hleft _ _ _ _ _ _)

/-- What a walk comes to from a stage on. -/
def outcome (library : Library) (allowance : Allowance) : Stage → Option (Walk × Run)
  | before bound w r => Asm6502.walk library bound allowance w r
  | inside bound index line record s =>
    let left (problem : Option Problem) (t : LineState) :=
      let (w, r) := Walk.leave index line record problem t
      Asm6502.walk library bound allowance w r
    match LineM.statements (.ofLine library allowance bound index) s with
    | .ok _ t => left none t
    | .error (.problem p) t => left (some p) t
    | .error .exhausted _ => none

/-- Whether a walk is over, with its result. -/
inductive Ends : Stage → Walk × Run → Prop
  | finishes {bound : Nat} {w : Walk} {r : Run} (hline : w.buffer.lines[w.next]? = none) :
      Ends (before (bound + 1) w r) (w.finish r)
  | stops {bound : Nat} {w : Walk} {r : Run} {line : String} (hline : w.buffer.lines[w.next]? = some line)
      (hcancelled : r.isCancelled = true) : Ends (before (bound + 1) w r) (w, r)

/-- A walk takes the line at hand and goes on from there. -/
theorem walk_of_line {w : Walk} {r : Run} {line : String} (hline : w.buffer.lines[w.next]? = some line)
    (hgoesOn : r.isCancelled = false) :
    Asm6502.walk library (bound + 1) allowance w r =
      match w.stepLine library (runBufferWithin library bound) allowance r line with
      | none => none
      | some (w, r) => Asm6502.walk library bound allowance w r := by
  rw [Asm6502.walk, hline]
  dsimp only
  rw [if_neg (by simp [hgoesOn])]
  rfl

theorem outcome_before {w : Walk} {r : Run} {line : String} (hline : w.buffer.lines[w.next]? = some line)
    (hgoesOn : r.isCancelled = false) :
    (before (bound + 1) w r).outcome library allowance =
      (inside bound w.next line (w.recordsTree r) (w.entering r line)).outcome library allowance := by
  rw [outcome, walk_of_line hline hgoesOn, outcome, Walk.stepLine, runLine_eq, Setting.ofLine, Walk.entering]
  rcases LineM.statements (lineSetting library (runBufferWithin library bound) _ w.next _)
    ⟨.ofColumn line w.resumeColumn, #[], #[], w.enter w.next, r⟩ with _ | ⟨_ | _, _⟩ <;> rfl

theorem outcome_inside {line : String} {record : Bool} {s : LineState} :
    (inside bound index line record s).outcome library allowance =
      if s.cursor.skipBlanks.rest = [] then
        (left bound index line record none { s with cursor := s.cursor.skipBlanks }).outcome library allowance
      else
        match execute library allowance bound index s with
        | .ok true t => (inside bound index line record t).outcome library allowance
        | .ok false t => (left bound index line record none t).outcome library allowance
        | .error (.problem p) t => (left bound index line record (some p) t).outcome library allowance
        | .error .exhausted _ => none := by
  rw [outcome, LineM.statements_eq Setting.isTame_ofLine]
  by_cases hrest : s.cursor.skipBlanks.rest = []
  · rw [if_pos hrest, if_pos hrest]
    rfl
  rw [if_neg hrest, if_neg hrest, execute]
  rcases LineM.statement (.ofLine library allowance bound index) { s with cursor := s.cursor.skipBlanks }
    with ⟨_ | _, t⟩ | ⟨_ | _, t⟩ <;> rfl

/-- A step changes nothing about what a walk comes to. -/
theorem Advances.outcome_eq {p q : Stage} (h : Advances library allowance p q) :
    p.outcome library allowance = q.outcome library allowance := by
  cases h with
  | enters hline hgoesOn => exact outcome_before hline hgoesOn
  | executes hrest hrun => rw [outcome_inside, if_neg hrest, hrun]
  | rewinds hrest hrun => rw [outcome_inside, if_neg hrest, hrun]
  | ends hrest => rw [outcome_inside, if_pos hrest]
  | fails hrest hrun => rw [outcome_inside, if_neg hrest, hrun]

theorem outcome_eq_of_path {p q : Stage} (h : Relation.ReflTransGen (Advances library allowance) p q) :
    p.outcome library allowance = q.outcome library allowance := by
  induction h with
  | refl => rfl
  | tail _ hstep ih => exact ih.trans hstep.outcome_eq

/-- A walk that comes to a result advances to its end. -/
def ComesToEnd (library : Library) (allowance : Allowance) (p : Stage) : Prop :=
  ∀ result, p.outcome library allowance = some result →
    ∃ q, Relation.ReflTransGen (Advances library allowance) p q ∧ q.Ends result

theorem ComesToEnd.head {p q : Stage} (hstep : Advances library allowance p q)
    (h : q.ComesToEnd library allowance) : p.ComesToEnd library allowance := by
  intro result hresult
  rw [hstep.outcome_eq] at hresult
  obtain ⟨q', hpath, hends⟩ := h result hresult
  exact ⟨q', hpath.head hstep, hends⟩

/-- A line comes to its end, because each statement leaves less of it. -/
theorem comesToEnd_inside {line : String} {record : Bool}
    (hbefore : ∀ w r, (before bound w r).ComesToEnd library allowance) :
    ∀ (n : Nat) (s : LineState), s.cursor.rest.length < n →
      (inside bound index line record s).ComesToEnd library allowance
  | 0, _, hn => by omega
  | n + 1, s, hn => by
    by_cases hrest : s.cursor.skipBlanks.rest = []
    · exact .head (.ends hrest) (hbefore _ _)
    cases hrun : execute library allowance bound index s with
    | ok goesOn t =>
      have hless := LineM.rest_lt_of_statement Setting.isTame_ofLine hrest hrun
      cases goesOn with
      | true => exact .head (.executes hrest hrun) (comesToEnd_inside hbefore n t (by omega))
      | false => exact .head (.rewinds hrest hrun) (hbefore _ _)
    | error stop t =>
      cases stop with
      | problem p => exact .head (.fails hrest hrun) (hbefore _ _)
      | exhausted =>
        intro result hresult
        rw [outcome_inside, if_neg hrest, hrun] at hresult
        cases hresult

theorem comesToEnd_before : ∀ (bound : Nat) (w : Walk) (r : Run),
    (before bound w r).ComesToEnd library allowance
  | 0, _, _ => fun _ hresult => by cases hresult
  | bound + 1, w, r => by
    cases hline : w.buffer.lines[w.next]? with
    | none =>
      intro result hresult
      have heq : (before (bound + 1) w r).outcome library allowance = some (w.finish r) := by
        unfold outcome Asm6502.walk
        simp only [hline]
      rw [heq] at hresult
      obtain rfl := Option.some.inj hresult
      exact ⟨_, .refl, .finishes hline⟩
    | some line =>
      cases hcancelled : r.isCancelled with
      | false =>
        exact .head (.enters hline hcancelled)
          (comesToEnd_inside (comesToEnd_before bound) _ _ (Nat.lt_succ_self _))
      | true =>
        intro result hresult
        have heq : (before (bound + 1) w r).outcome library allowance = some (w, r) := by
          unfold outcome Asm6502.walk
          simp only [hline, hcancelled, if_pos]
        rw [heq] at hresult
        obtain rfl := Option.some.inj hresult
        exact ⟨_, .refl, .stops hline hcancelled⟩

/-- A walk that comes to a result gets there in finitely many steps. -/
theorem exists_ends {w w' : Walk} {r r' : Run} (h : Asm6502.walk library bound allowance w r = some (w', r')) :
    ∃ q, Relation.ReflTransGen (Advances library allowance) (before bound w r) q ∧ q.Ends (w', r') :=
  comesToEnd_before bound w r _ h

end Stage
end Asm6502
