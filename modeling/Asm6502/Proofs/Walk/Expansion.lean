/-
# Expansion comes to an end

Files include files, macros call macros, and texts hold `EVAL` and `ASM` of other
texts. Unless a loop is executed, both passes over a document come to an end,
however these are combined: what is nested never exceeds the most there may be,
whatever is brought in leaves less to nest, and every loop over a line leaves
less of the line in each round.

Key definitions: `Expr.Opens`, `Expr.Nests`, `AssemblesWithout`.
Key theorems: `Expr.Opens.refused`, `exists_outcome`, `expansion_terminates`.
-/
import Asm6502.Proofs.Expr.Scan
import Asm6502.Proofs.Statement.Rounds
import Asm6502.Proofs.Walk.Skipping
import Asm6502.Proofs.Walk.Termination

namespace Asm6502

/-! ### Texts of `EVAL` -/

namespace Expr

/-- Whether the evaluation of an expression, with `n` texts still to nest, gets to
an `EVAL` of a text, in a state. -/
structure Opens (ctx : Context) (n : Nat) (c : Cursor) (s : State) (column : Nat) (text : String) (t : State) :
    Prop where
  reached : ∃ before closing after st pending node operands,
    (Token.scan c.skipBlanks).1 = before ++ .closing closing :: after ∧
    before.foldlM (Stacks.take (evaluateText ctx n) ctx) Stacks.start s = .ok st t ∧
    collapse Pending.isOperator st.pending st.operands =
      .ok (.call .eval 0 column :: pending, ⟨.str text, node⟩ :: operands)

/-- How many texts of `EVAL` the evaluation of an expression is in. -/
inductive Nests (ctx : Context) : Nat → Cursor → State → Nat → Prop
  | here {n : Nat} {c : Cursor} {s : State} : Nests ctx n c s 0
  | inside {n k column : Nat} {c : Cursor} {s t : State} {text : String} (hopens : Opens ctx (n + 1) c s column text t)
      (hinner : Nests ctx n (.ofText text) t k) : Nests ctx (n + 1) c s (k + 1)

variable {ctx : Context} {n k column : Nat} {c : Cursor} {s t : State} {text : String}

theorem Nests.le (h : Nests ctx n c s k) : k ≤ n := by
  induction h with
  | here => exact Nat.zero_le _
  | inside _ _ ih => exact Nat.succ_le_succ ih

/-- The evaluation of an expression stops where that of the text of an `EVAL`
does. -/
theorem Opens.stops (h : Opens ctx n c s column text t) {problem : Problem} {u : State}
    (hstops : evaluateText ctx n text column t = .error problem u) : evaluate ctx n c s = .error problem u := by
  obtain ⟨before, closing, after, st, pending, node, operands, hscan, hbefore, hcollapse⟩ := h.reached
  have hclosing : Stacks.take (evaluateText ctx n) ctx st (.closing closing) t = .error problem u := by
    change EStateM.bind (Eval.ofExcept (collapse Pending.isOperator st.pending st.operands)) _ t = _
    rw [hcollapse]
    change EStateM.bind (evaluateText ctx n text column) _ t = _
    unfold EStateM.bind
    rw [hstops]
  have hfold : (Token.scan c.skipBlanks).1.foldlM (Stacks.take (evaluateText ctx n) ctx) Stacks.start s =
      .error problem u := by
    rw [hscan, List.foldlM_append]
    simp only [List.foldlM_cons, bind, EStateM.bind, hbefore, hclosing]
  change EStateM.bind ((Token.scan c.skipBlanks).1.foldlM (Stacks.take (evaluateText ctx n) ctx) Stacks.start) _ s = _
  unfold EStateM.bind
  rw [hfold]

/-- One `EVAL` too many is refused. -/
theorem Opens.refused (h : Opens ctx 0 c s column text t) :
    evaluate ctx 0 c s = .error ⟨.tooManyEvals, column⟩ t :=
  h.stops rfl

end Expr

/-! ### Documents -/

/-- The walk over the text of the main file. -/
def mainWalk (file : Nat) (text : String) : Walk := .start (.ofText file text 0 none) []

/-- Whether assembling a document executes no directive of a kind, in either
pass. -/
def AssemblesWithout (d : Directive) (library : Library) (path : Path) (options : Options) (clock : Int)
    (ticket : Ticket) (generation : Nat) : Prop :=
  ∀ text, library.readText path = .ok text →
    let (file, r) :=
      ((Run.start options clock ticket generation).noteRead (library.interruptions · path)).addFile path
    (mainWalk file text).IsFreeOf library fullAllowance (r.beginPass .first) d ∧
      ∀ bound r', runPass library bound file text .first r = some r' →
        (mainWalk file text).IsFreeOf library fullAllowance (r'.beginPass .second) d

section
open Filter

variable {library : Library} {file : Nat} {text : String} {pass : Pass} {r : Run}

theorem isBalanced_mainWalk : IsBalanced fullAllowance (mainWalk file text) (r.beginPass pass) :=
  ⟨rfl, rfl, Nat.zero_le _⟩

theorem settles_runPass (hfree : (mainWalk file text).IsFreeOf library fullAllowance (r.beginPass pass) .forLoop) :
    ∃ r', ∀ᶠ b in atTop, runPass library b file text pass r = some r' := by
  obtain ⟨result, hresult⟩ := settles_walk hfree (.of_forall fun b => .start b) (fun f hf => by cases hf)
  refine ⟨result.2, ?_⟩
  filter_upwards [hresult] with b hb
  change (walk library b fullAllowance (mainWalk file text) (r.beginPass pass)).map (·.2) = some result.2
  rw [hb]
  rfl

theorem settles_runPasses
    (hfirst : (mainWalk file text).IsFreeOf library fullAllowance (r.beginPass .first) .forLoop)
    (hsecond : ∀ bound r', runPass library bound file text .first r = some r' →
      (mainWalk file text).IsFreeOf library fullAllowance (r'.beginPass .second) .forLoop) :
    ∃ outcome, outcome.result ≠ .error .exhausted ∧ ∀ᶠ b in atTop, runPasses library b file text r = outcome := by
  obtain ⟨r₁, hr₁⟩ := settles_runPass hfirst
  obtain ⟨b₁, hb₁⟩ := hr₁.exists
  obtain ⟨r₂, hr₂⟩ := settles_runPass (hsecond b₁ r₁ hb₁)
  cases hcancelled₁ : r₁.isCancelled with
  | true =>
    refine ⟨⟨.error .cancelled, r₁.generation⟩, by rintro ⟨⟩, ?_⟩
    filter_upwards [hr₁] with b hb
    simp only [runPasses, hb, hcancelled₁, if_true]
  | false =>
    cases hcancelled₂ : r₂.isCancelled with
    | true =>
      refine ⟨⟨.error .cancelled, r₂.generation⟩, by rintro ⟨⟩, ?_⟩
      filter_upwards [hr₁, hr₂] with b hb hb'
      simp only [runPasses, hb, hb', hcancelled₁, hcancelled₂, if_true, Bool.false_eq_true, if_false]
    | false =>
      refine ⟨⟨.ok ⟨r₂⟩, r₂.generation⟩, by rintro ⟨⟩, ?_⟩
      filter_upwards [hr₁, hr₂] with b hb hb'
      simp only [runPasses, hb, hb', hcancelled₁, hcancelled₂, Bool.false_eq_true, if_false]

/-- Without loops assembling a document comes to the same outcome within any bound
that is large enough. -/
theorem exists_outcome {path : Path} {options : Options} {clock : Int} {ticket : Ticket} {generation : Nat}
    (h : AssemblesWithout .forLoop library path options clock ticket generation) :
    ∃ outcome, outcome.result ≠ .error .exhausted ∧
      ∀ᶠ b in atTop, assembleWithin b library path options clock ticket generation = outcome := by
  cases hread : library.readText path with
  | error error =>
    refine ⟨⟨.error (.unreadable path error), generation + library.interruptions 0 path⟩, by rintro ⟨⟩,
      .of_forall fun b => ?_⟩
    rw [assembleWithin, hread]
    rfl
  | ok text =>
    obtain ⟨hfirst, hsecond⟩ := h text hread
    obtain ⟨outcome, hends, houtcome⟩ := settles_runPasses hfirst hsecond
    refine ⟨outcome, hends, houtcome.mono fun b hb => ?_⟩
    rw [assembleWithin, hread]
    exact hb

end

/-- Whether a statement that has an allowance brings in lines or a text, with what
these may still nest and the scopes around them. -/
inductive BringsIn (a : Allowance) (t : LineState) : Allowance → List Frame → Prop
  /-- The lines of a file or a macro. -/
  | lines {env : Setting} {x : Call} (hallowance : env.allowance = a)
      (hasm : LineM.directive? { t with cursor := t.cursor.skipBlanks } ≠ some .asm)
      (hwaits : LineM.Waits x LineM.statement env { t with cursor := t.cursor.skipBlanks }) :
      BringsIn a t x.allowance x.frames
  /-- The text of an `ASM`. -/
  | statements {env : Setting} {text : String} {u : LineState} {n : Nat} (hallowance : env.allowance = a)
      (hevals : a.evals = n + 1) (hopens : t.Inlines env text u) : BringsIn a t ⟨a.includes, n⟩ u.walk.frames
  /-- The text of an `EVAL` in one of its expressions. -/
  | expression {ctx : Expr.Context} {c : Cursor} {s s' : Expr.State} {column n : Nat} {text : String}
      (hevals : a.evals = n + 1) (hopens : Expr.Opens ctx (n + 1) c s column text s') :
      BringsIn a t ⟨a.includes, n⟩ t.walk.frames

theorem leeway_pred {a : Allowance} {n : Nat} (h : a.evals = n + 1) (frames : List Frame) :
    leeway ⟨a.includes, n⟩ frames < leeway a frames := by
  unfold leeway
  rw [h]
  dsimp only
  omega

theorem BringsIn.leeway_lt {a a' : Allowance} {t : LineState} {frames : List Frame} (h : BringsIn a t a' frames) :
    leeway a' frames < leeway a t.walk.frames := by
  cases h with
  | lines hallowance hasm hwaits =>
    subst hallowance
    exact (hwaits.isInside hasm).leeway_lt
  | statements _ hevals hopens =>
    rw [hopens.opened.1]
    exact leeway_pred hevals _
  | expression hevals _ => exact leeway_pred hevals _

/-- A document that executes no `FOR` is assembled, or refused, within some bound on
lines, and any greater one makes no difference. At every place that a pass gets to
what is nested and what may still be nested make up the most there may be, the
texts of `EVAL` included. Whatever is brought in leaves less to nest, an `EVAL`
without any left is refused, and the loops over a line advance in the settings in
which its statements are executed. -/
theorem expansion_terminates (library : Library) (path : Path) (options : Options) (clock : Int) (ticket : Ticket)
    (generation : Nat) :
    (AssemblesWithout .forLoop library path options clock ticket generation →
      ∃ outcome least, outcome.result ≠ .error .exhausted ∧
        ∀ bound ≥ least, assembleWithin bound library path options clock ticket generation = outcome) ∧
    (∀ file text pass (r : Run) a p, Visits library fullAllowance (mainWalk file text) (r.beginPass pass) a p →
      IsBalanced a p.walk p.run) ∧
    (∀ file text pass (r : Run) a t, Meets library fullAllowance (mainWalk file text) (r.beginPass pass) a t →
      IsBalanced a t.walk t.run ∧
        ∀ ctx c s k, Expr.Nests ctx a.evals c s k → t.run.depth.evals + k ≤ maxEvals) ∧
    (∀ a t a' frames, BringsIn a t a' frames → leeway a' frames < leeway a t.walk.frames) ∧
    (∀ ctx c s column text t, Expr.Opens ctx 0 c s column text t →
      Expr.evaluate ctx 0 c s = .error ⟨.tooManyEvals, column⟩ t) ∧
    (∀ bound includes index n, (lineSetting library (runBufferWithin library bound) includes index n).IsTame) ∧
    LineM.LoopsAdvance := by
  refine ⟨fun h => ?_, fun file text pass r a p hp => hp.isBalanced isBalanced_mainWalk,
    fun file text pass r a t ht => ?_, fun _ _ _ _ h => h.leeway_lt, fun _ _ _ _ _ _ h => h.refused,
    fun bound includes index n => isTame_lineSetting depth_runBufferWithin n, LineM.loopsAdvance⟩
  · obtain ⟨outcome, hends, houtcome⟩ := exists_outcome h
    obtain ⟨least, hleast⟩ := Filter.eventually_atTop.mp houtcome
    exact ⟨outcome, least, hends, hleast⟩
  · have hbalanced : IsBalanced a t.walk t.run := ht.isBalanced isBalanced_mainWalk
    refine ⟨hbalanced, fun ctx c s k hnests => ?_⟩
    have hdepth := hbalanced.evals
    have hk := hnests.le
    omega

/-! ### A file that includes itself -/

/-- A file whose only line includes it. -/
def selfIncludingSample : Library := .ofFiles [(⟨"main"⟩, "INCLUDE \"main\"".toUTF8)]

namespace SelfIncluding

/-- What holds of every walk over the file. -/
structure Reads (w : Walk) : Prop where
  lines : w.buffer.lines = #["INCLUDE \"main\""]
  entry : w.resumeColumn = 0
  live : w.isLive = true

/-- Whether nothing has been executed of the line, or all. -/
def IsAround (c : Cursor) : Prop := c = .ofText "INCLUDE \"main\"" ∨ c.skipBlanks.rest = []

/-- What holds at every stage. -/
def Holds : Stage → Prop
  | .before _ w _ => Reads w
  | .inside _ _ _ _ s => Reads s.walk ∧ IsAround s.cursor

variable {env : Setting} {s t : LineState}

theorem reads_start {path : Path} {text : String} (h : selfIncludingSample.readText path = .ok text)
    (file : Nat) (site : Option Nat) (frames : List Frame) : Reads (.start (.ofText file text 0 site) frames) := by
  refine ⟨?_, rfl, rfl⟩
  have htext : Library.textOf "INCLUDE \"main\"".toUTF8 = .ok text := by
    unfold Library.readText selfIncludingSample Library.ofFiles Library.contents? at h
    simp only [List.foldl_cons, List.foldl_nil] at h
    split at h
    · rename_i bytes hbytes
      split_ifs at hbytes
      rw [Option.some.inj hbytes]
      exact h
    · cases h
  have hlines : (Library.textOf "INCLUDE \"main\"".toUTF8).map Text.lines = .ok ["INCLUDE \"main\""] := by
    decide +kernel
  rw [htext] at hlines
  have hlines : Text.lines text = ["INCLUDE \"main\""] := Except.ok.inj hlines
  unfold Walk.start Buffer.ofText
  rw [hlines]

/-- The only statement is the `INCLUDE`. -/
theorem directive?_eq (hs : Reads s.walk) (hcursor : IsAround s.cursor) (hrest : s.cursor.skipBlanks.rest ≠ []) :
    LineM.directive? { s with cursor := s.cursor.skipBlanks } = some .includeFile := by
  have hword : ¬ (Cursor.ofText "INCLUDE \"main\"").skipBlanks.atAssignment = true ∧
      Directive.find? (Cursor.ofText "INCLUDE \"main\"").skipBlanks.rest = some ("INCLUDE", .includeFile) := by
    decide +kernel
  rw [hcursor.resolve_right hrest]
  exact LineM.directive?_of_find? hword.1 hword.2 (Bool.or_eq_true_iff.mpr (.inl hs.live))

/-- It leaves the walk as it is, and nothing comes after it. -/
theorem wp_statement (hs : Reads s.walk) (hcursor : IsAround s.cursor) (hrest : s.cursor.skipBlanks.rest ≠ []) :
    LineM.wp LineM.statement env { s with cursor := s.cursor.skipBlanks }
      (fun _ t => Reads t.walk ∧ IsAround t.cursor) fun _ t => Reads t.walk := by
  have hd := directive?_eq hs hcursor hrest
  have hstill (doing : Doing) (h : LineM.doing? { s with cursor := s.cursor.skipBlanks } = some doing) :
      doing.isStill = true := by
    rw [LineM.doing?_of_directive? hd] at h
    cases h
    rfl
  have hacts : LineM.Acts env .whole (LineM.doing? { s with cursor := s.cursor.skipBlanks } = some ·) LineM.statement
      { s with cursor := s.cursor.skipBlanks } :=
    LineM.acts_statement env.keepsTo_whole (fun _ h => h) trivial fun _ => trivial
  have hends : LineM.wp LineM.statement env { s with cursor := s.cursor.skipBlanks }
      (fun _ t => t.cursor = s.cursor.skipBlanks.skipStatement) fun _ _ => True :=
    LineM.ends_statement fun d hd' => by
      cases (LineM.directive?_cursor hd).symm.trans hd'
      rfl
  have hend : s.cursor.skipBlanks.skipStatement.skipBlanks.rest = [] := by
    rw [hcursor.resolve_right hrest]
    decide +kernel
  refine LineM.wp_mono (LineM.wp_and hacts hends) (fun _ t ht => ⟨?_, ?_⟩) fun _ t ht => ?_
  · rw [ht.1.2.walk_eq hstill]
    exact hs
  · rw [ht.2]
    exact .inr hend
  · rw [ht.1.deeds.walk_eq hstill]
    exact hs

theorem reads_left {bound index : Nat} {line : String} {record : Bool} {problem : Option Problem} (hs : Reads s.walk) :
    Holds (.left bound index line record problem s) := by
  obtain ⟨capture, hcapture⟩ := s.walk.captureLine_eq index line
  change Reads (s.walk.captureLine index line)
  rw [hcapture]
  exact ⟨hs.lines, hs.entry, hs.live⟩

theorem holds_advances {allowance : Allowance} {p q : Stage}
    (h : Stage.Advances selfIncludingSample allowance p q) (hp : Holds p) : Holds q := by
  cases h with
  | @enters bound w r line hline =>
    have hw : Reads w := hp
    rw [hw.lines] at hline
    obtain rfl : line = "INCLUDE \"main\"" := by simpa using Array.mem_of_getElem? hline
    refine ⟨⟨hw.lines, rfl, hw.live⟩, .inl ?_⟩
    rw [Walk.entering, hw.entry]
    rfl
  | executes hrest hrun => exact LineM.of_wp_ok (wp_statement hp.1 hp.2 hrest) hrun
  | rewinds hrest hrun => exact reads_left (LineM.of_wp_ok (wp_statement hp.1 hp.2 hrest) hrun).1
  | @ends _ _ _ _ s => exact reads_left (s := { s with cursor := s.cursor.skipBlanks }) hp.1
  | fails hrest hrun => exact reads_left (LineM.of_wp_error (wp_statement hp.1 hp.2 hrest) hrun)

theorem holds_getsTo {runBuffer : BufferRunner} {includes index n m : Nat}
    (h : s.GetsTo selfIncludingSample runBuffer includes index n m t) (hs : Reads s.walk) (hcursor : IsAround s.cursor) :
    Reads t.walk ∧ IsAround t.cursor := by
  induction h with
  | refl => exact ⟨hs, hcursor⟩
  | executes _ hrest hrun ih => exact LineM.of_wp_ok (wp_statement ih.1 ih.2 hrest) hrun
  | @inlines m t u text _ hopens ih =>
    have hinclude := directive?_eq ih.1 ih.2 (LineM.rest_ne_nil_of_directive? hopens.executed)
    rw [hopens.executed] at hinclude
    cases hinclude

theorem holds_visits {allowance a : Allowance} {w : Walk} {r : Run} {p : Stage}
    (h : Visits selfIncludingSample allowance w r a p) (hw : Reads w) : Holds p := by
  induction h with
  | start => exact hw
  | advances _ hstep ih => exact holds_advances hstep ih
  | nests bound' _ hgets hrest hasm hwaits ih =>
    obtain ⟨ht, hcursor⟩ := holds_getsTo hgets ih.1 ih.2
    have hdoing := LineM.doing?_of_directive? (directive?_eq ht hcursor hrest)
    have hlines {env : Setting} {on : Region} {may : Doing → Prop} {s : LineState} {w : Walk} {depth : Depth} {x : Call}
        (hlibrary : env.library = selfIncludingSample) (hmay : ¬ may .calling) (hbrings : s.Brings env on may w depth x) :
        Reads (.start x.buffer x.frames) := by
      cases hbrings with
      | expansion hcalling => exact absurd hcalling hmay
      | inclusion _ _ hx =>
        cases hx with
        | intro _ _ htext =>
          rw [hlibrary] at htext
          exact reads_start htext _ _ _
    refine hlines rfl (fun hcalling => ?_) (hwaits.brings hasm)
    rw [hdoing] at hcalling
    cases hcalling

theorem assemblesWithout : AssemblesWithout .forLoop selfIncludingSample ⟨"main"⟩ ⟨[], 0, none⟩ 0 .never 0 := by
  have hfree {file : Nat} {text : String} {r : Run} (htext : selfIncludingSample.readText ⟨"main"⟩ = .ok text) :
      (mainWalk file text).IsFreeOf selfIncludingSample fullAllowance r .forLoop := by
    rintro a t ⟨bound, index, line, record, s, n, hvisits, hgets⟩ hloop
    obtain ⟨hs, hcursor⟩ := holds_visits hvisits (reads_start htext file none [])
    obtain ⟨ht, hcursor'⟩ := holds_getsTo hgets hs hcursor
    rw [directive?_eq ht hcursor' (LineM.rest_ne_nil_of_directive? hloop)] at hloop
    cases hloop
  intro text htext
  exact ⟨hfree htext, fun _ _ _ => hfree htext⟩

end SelfIncluding

theorem expansion_terminates_selfIncluding :
    AssemblesWithout .forLoop selfIncludingSample ⟨"main"⟩ ⟨[], 0, none⟩ 0 .never 0 ∧
      ∃ outcome least, outcome.result ≠ .error .exhausted ∧
        ∀ bound ≥ least, assembleWithin bound selfIncludingSample ⟨"main"⟩ ⟨[], 0, none⟩ 0 .never 0 = outcome :=
  ⟨SelfIncluding.assemblesWithout,
    (expansion_terminates selfIncludingSample ⟨"main"⟩ ⟨[], 0, none⟩ 0 .never 0).1 SelfIncluding.assemblesWithout⟩

end Asm6502
