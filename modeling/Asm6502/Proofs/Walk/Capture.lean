/-
# Captured lines

While the lines of a macro are captured nothing is executed, so no loop goes back and
the walk goes on from line to line. So the body of a macro always holds the lines of
the buffer from behind its header on, one by one; this also holds where a text of
`ASM` begins or ends the definition.

Key definitions: `Capture.Holds`, `Walk.Records`, `Walk.IsRecording`.
Key theorems: `LineM.line_keeps`, `LineM.records_statement`,
`Walk.isRecording_stepLine`.
-/
import Asm6502.Proofs.Walk.Skipping
import Asm6502.Proofs.Walk.Termination

namespace Asm6502

/-- Whether a captured macro holds the lines of a buffer behind its header and before
an index. -/
structure Capture.Holds (b : Buffer) (index : Nat) (c : Capture) : Prop where
  file : c.definition.definedAt.file = b.file
  line : c.definition.definedAt.line = b.firstLine + c.startIndex
  started : c.startIndex ≤ index
  body : c.definition.body = Text.unlines (b.linesBetween c.startIndex index)

namespace Walk

/-- What holds of a walk on the line at an index: a definition of a macro is not
executed, and what is captured are the lines before. -/
structure Records (index : Nat) (w : Walk) : Prop where
  skipped : ∀ c ∈ w.conditionals, c.isMacro = true → c.condition = false
  next : w.rewound = false → w.next = index + 1
  capture : ∀ c, w.capture = some c →
    (∃ d ∈ w.conditionals, d.isMacro = true) ∧ w.rewound = false ∧ c.Holds w.buffer index

/-- What holds of a walk between two lines. -/
structure IsRecording (w : Walk) : Prop where
  skipped : ∀ c ∈ w.conditionals, c.isMacro = true → c.condition = false
  capture : ∀ c, w.capture = some c →
    (∃ d ∈ w.conditionals, d.isMacro = true) ∧ c.Holds w.buffer w.next ∧ c.startIndex < w.next

variable {w w' : Walk} {index : Nat}

theorem isRecording_start (buffer : Buffer) (frames : List Frame) : (start buffer frames).IsRecording where
  skipped c hc := by cases hc
  capture c hc := by cases hc

/-- Nothing is captured where statements are executed. -/
theorem Records.capture_eq_none (h : w.Records index) (hlive : w.isLive = true) : w.capture = none := by
  cases hcapture : w.capture with
  | none => rfl
  | some c =>
    obtain ⟨⟨d, hd, hmacro⟩, -⟩ := h.capture c hcapture
    have hcondition := List.all_eq_true.mp hlive d hd
    rw [h.skipped d hd hmacro] at hcondition
    cases hcondition

/-- A change of conditionals that leaves definitions of macros alone. -/
theorem Records.changeConditionals (h : w.Records index) {conditionals : List Conditional}
    (hsame : Conditional.SameMacros w.conditionals conditionals) :
    ({ w with conditionals } : Walk).Records index where
  skipped c hc hmacro := h.skipped c ((hsame c hmacro).mp hc) hmacro
  next := h.next
  capture c hcapture := by
    obtain ⟨⟨d, hd, hmacro⟩, hc⟩ := h.capture c hcapture
    exact ⟨⟨d, (hsame d hmacro).mpr hd, hmacro⟩, hc⟩

theorem Records.startMacro (h : w.Records index) (hrewound : w.rewound = false) {start : Nat}
    {definition : Option Macro}
    (hdefinition : ∀ m, definition = some m → ∃ name parameters column,
      m = { Macro.ofHeader name (w.buffer.position index column) with parameters })
    (hstart : w.startMacro definition ⟨index, start⟩ = .ok w') : w'.Records index := by
  rw [frame_of_startMacro hstart]
  refine ⟨fun c hc hmacro => ?_, h.next, fun c hc => ?_⟩
  · rcases List.mem_cons.mp hc with rfl | hc
    · rfl
    · exact h.skipped c hc hmacro
  · obtain ⟨m, hm, rfl⟩ := Option.map_eq_some_iff.mp hc
    obtain ⟨name, parameters, column, rfl⟩ := hdefinition m hm
    refine ⟨⟨_, List.mem_cons_self, rfl⟩, hrewound, rfl, rfl, Nat.le_refl index, ?_⟩
    dsimp only
    rw [Buffer.linesBetween_self]
    rfl

theorem Records.endMacro (h : w.Records index) {definition : Option Macro} (hend : w.endMacro = .ok (definition, w')) :
    w'.Records index := by
  unfold Walk.endMacro at hend
  split at hend
  · rename_i f conditionals hconditionals
    split_ifs at hend
    cases hend
    refine ⟨fun c hc => h.skipped c ?_, h.next, fun c hc => by cases hc⟩
    rw [hconditionals]
    exact List.mem_cons_of_mem _ hc
  · cases hend

/-- Where an iteration ends, nothing is captured. -/
theorem Records.stepLoop {r r' : Run} (h : w.Records index) (hlive : w.isLive = true)
    (hstep : w.stepLoop r = .ok (w', r')) : w'.Records index := by
  have hnone := h.capture_eq_none hlive
  have hcapture (c : Capture) (hc : w.capture = some c) : False := by
    rw [hnone] at hc
    cases hc
  unfold Walk.stepLoop at hstep
  split at hstep
  · cases hstep
  · split at hstep
    · split at hstep
      · cases hstep
        exact ⟨h.skipped, h.next, fun c hc => (hcapture c hc).elim⟩
      · cases hstep
        exact ⟨h.skipped, Bool.noConfusion, fun c hc => (hcapture c hc).elim⟩
    · cases hstep

/-- A line is entered with the lines before it captured. -/
theorem IsRecording.enter (h : w.IsRecording) : (w.enter w.next).Records w.next where
  skipped := h.skipped
  next _ := rfl
  capture c hc := ⟨(h.capture c hc).1, rfl, (h.capture c hc).2.1⟩

/-- A line that has been executed is captured, if anything is. -/
theorem Records.captureLine (h : w.Records index) {line : String} (hline : w.buffer.lines[index]? = some line) :
    (w.captureLine index line).IsRecording := by
  unfold Walk.captureLine
  cases hcapture : w.capture with
  | none => exact ⟨h.skipped, fun c hc => by rw [hcapture] at hc; cases hc⟩
  | some c =>
    obtain ⟨hisMacro, hrewound, hc⟩ := h.capture c hcapture
    have hnext := h.next hrewound
    dsimp only
    split_ifs with hstart
    · refine ⟨h.skipped, fun c' hc' => ?_⟩
      cases hcapture.symm.trans hc'
      rw [hnext]
      refine ⟨hisMacro, { hc with started := Nat.le_succ_of_le hc.started, body := ?_ }, Nat.lt_succ_of_le hc.started⟩
      rw [hc.body, hstart, Buffer.linesBetween_self, Buffer.linesBetween_succ_self]
    · refine ⟨h.skipped, fun c' hc' => ?_⟩
      cases hc'
      dsimp only
      rw [hnext]
      refine ⟨hisMacro, ⟨hc.file, hc.line, Nat.le_succ_of_le hc.started, ?_⟩, Nat.lt_succ_of_le hc.started⟩
      have hlt := Nat.lt_of_le_of_ne hc.started hstart
      simp only [Macro.addLine]
      rw [Buffer.linesBetween_succ _ hlt hline, Text.unlines_concat, hc.body]

end Walk

/-! ### Statements -/

/-- What the deeds of a statement keep that goes on with definitions or ends an
iteration, but not both. -/
structure Walk.IsTaking (may : Doing → Prop) (index : Nat) (w : Walk) : Prop where
  records : w.Records index
  standing : may .turning → w.rewound = false
  live : may .stepping → w.isLive = true

section
variable {env : Setting} {s : LineState}

theorem Deed.isTaking {on : Region} {may : Doing → Prop} {x y : Walk × Run} (h : Deed env on may x y)
    (hinlining : ¬ may .inlining) (hone : may .turning → ¬ may .stepping) (hx : x.1.IsTaking may env.index) :
    y.1.IsTaking may env.index := by
  have hown {x : Walk} (hx : x.IsTaking may env.index) (own : List Frame) : ({ x with own } : Walk).IsTaking may env.index :=
    ⟨⟨hx.records.skipped, hx.records.next, hx.records.capture⟩, hx.standing, hx.live⟩
  cases h with
  | inlined _ hmay => exact absurd hmay hinlining
  | opened _ hopen =>
    obtain ⟨rfl, -⟩ := Walk.eq_of_openScope hopen
    exact hown hx _
  | closed | ran => exact hown hx _
  | looped _ _ _ _ _ hstart =>
    obtain ⟨rfl, -⟩ := Walk.eq_of_startLoop hstart
    exact hown hx _
  | stepped hmay hstep =>
    refine ⟨hx.records.stepLoop (hx.live hmay) hstep, fun hturning => absurd hmay (hone hturning), fun _ => ?_⟩
    obtain ⟨f, own, l, -, -, ⟨rfl, -⟩ | ⟨l', -, rfl, -⟩⟩ := Walk.eq_of_stepLoop hstep <;> exact hx.live hmay
  | turned hmay hsame =>
    exact ⟨hx.records.changeConditionals hsame, hx.standing, fun hstepping => absurd hstepping (hone hmay)⟩
  | begun hmay hdefinition hstart =>
    refine ⟨hx.records.startMacro (hx.standing hmay) (fun m hm => ?_) hstart, ?_,
      fun hstepping => absurd hstepping (hone hmay)⟩
    · obtain ⟨-, name, column, parameters, hm, -⟩ := hdefinition m hm
      exact ⟨name, parameters, column, hm⟩
    · rw [Walk.frame_of_startMacro hstart]
      exact hx.standing
  | ended hmay hend =>
    refine ⟨hx.records.endMacro hend, ?_, fun hstepping => absurd hstepping (hone hmay)⟩
    rw [Walk.rewound_of_endMacro hend]
    exact hx.standing
  | _ => exact hx

end

namespace LineM

/-- A statement other than `ASM` leaves what is captured in order. -/
theorem records_statement {env : Setting} {s : LineState} (hasm : directive? s ≠ some .asm)
    (hrewound : s.walk.rewound = false) (hs : s.walk.Records env.index) :
    wp statement env s (fun _ t => t.walk.Records env.index) fun _ t => t.walk.Records env.index := by
  have hone : doing? s = some .turning → ¬ doing? s = some .stepping := fun h h' => by cases h.symm.trans h'
  have hdeeds {t : LineState} (h : s.Deeds env .whole (doing? s = some ·) t) : t.walk.Records env.index :=
    (h.keeps (P := fun w _ => w.IsTaking (doing? s = some ·) env.index)
      (fun _ _ hdeed hx => hdeed.isTaking (fun h => hasm (doing?_eq_inlining.mp h)) hone hx)
      ⟨hs, fun _ => hrewound, isLive_of_stepping⟩).records
  exact wp_mono deeds_statement (fun _ _ ht => hdeeds ht) fun _ _ ht => hdeeds ht

/-! ### Lines -/

section
variable {library : Library} {runBuffer : BufferRunner} {includes index evals : Nat} {s : LineState}

/-- The statements of a line keep of the walk what each of them keeps. -/
theorem line_keeps_of_statement {env : Setting} {I : Walk → Prop} (henv : env.IsTame)
    (hI : ∀ t : LineState, t.walk.rewound = false → I t.walk →
      wp statement env t (fun _ u => I u.walk) fun _ u => I u.walk)
    (hrewound : s.walk.rewound = false) (hs : I s.walk) :
    wp statements env s (fun _ t => I t.walk) fun _ t => I t.walk := by
  -- each statement leaves less of the line
  induction hlength : s.cursor.rest.length using Nat.strong_induction_on generalizing s with
  | _ length ih =>
    subst hlength
    unfold wp
    rw [statements_eq henv]
    by_cases hrest : s.cursor.skipBlanks.rest = []
    · rw [if_pos hrest]
      exact hs
    rw [if_neg hrest]
    have hkeeps := hI { s with cursor := s.cursor.skipBlanks } hrewound hs
    rcases hrun : statement env { s with cursor := s.cursor.skipBlanks } with ⟨_ | _, u⟩ | ⟨stop, u⟩
    · exact of_wp_ok hkeeps hrun
    · have hless := rest_lt_of_statement henv hrest hrun
      exact ih _ hless (of_wp_ok standing_statement hrun rfl hrewound) (of_wp_ok hkeeps hrun) rfl
    · exact of_wp_error hkeeps hrun

/-- **What every statement but `ASM` keeps of a walk, a line keeps,** with the texts
on it. -/
theorem line_keeps {I : Walk → Prop}
    (hrunner : ∀ allowance buffer frames r r', runBuffer allowance buffer frames r = some r' → r'.depth = r.depth)
    (hI : ∀ n (t : LineState), directive? t ≠ some .asm → t.walk.rewound = false → I t.walk →
      wp statement (lineSetting library runBuffer includes index n) t (fun _ u => I u.walk) fun _ u => I u.walk)
    (hrewound : s.walk.rewound = false) (hs : I s.walk) :
    wp statements (lineSetting library runBuffer includes index evals) s (fun _ t => I t.walk) fun _ t => I t.walk := by
  -- a text has one less to nest
  induction evals using Nat.strong_induction_on generalizing s with
  | _ evals ih =>
    refine line_keeps_of_statement (isTame_lineSetting hrunner evals) (fun t hrewound ht => ?_) hrewound hs
    by_cases hasm : directive? t = some .asm
    · obtain ⟨spelling, hfind⟩ := find?_of_directive? hasm
      apply wp_statement_directive hasm hfind
      refine wp_mono (wp_asm (Q := fun u => I u.walk) (E := fun _ u => I u.walk) (fun _ u _ hu => ?_)
        fun text column u hopen hevals hwalk => ?_) (fun _ _ hu _ => hu) fun _ _ hu => hu
      · rw [hu]
        exact ht
      · obtain ⟨k, rfl⟩ := Nat.exists_eq_succ_of_ne_zero hevals
        have hkeeps := wp_runText (fun w _ => I w) (fun _ w _ => I w) (ih k (Nat.lt_succ_self k)
          (s := ⟨.ofText text, #[], #[], u.walk, u.run⟩) (hwalk ▸ hrewound) (hwalk ▸ ht))
        exact wp_mono hkeeps (fun _ _ hu => hu) fun _ _ hu _ _ => hu
    · exact hI evals t hasm hrewound ht

/-- A line leaves what is captured in order. -/
theorem records_statements
    (hrunner : ∀ allowance buffer frames r r', runBuffer allowance buffer frames r = some r' → r'.depth = r.depth)
    (hrewound : s.walk.rewound = false) (hs : s.walk.Records index) :
    wp statements (lineSetting library runBuffer includes index evals) s (fun _ t => t.walk.Records index)
      fun _ t => t.walk.Records index :=
  line_keeps hrunner
    (fun _ _ hasm hrewound ht => records_statement hasm hrewound ht) hrewound hs

end
end LineM

/-! ### Walks -/

theorem LineState.Comes.buffer_eq {env : Setting} {steps : Prop} {s t : LineState} (h : s.Comes env steps t) :
    t.walk.buffer = s.walk.buffer := by
  refine h.keeps (P := fun w _ => w.buffer = s.walk.buffer) (fun x y he hw => ?_) rfl
  cases he with
  | stepped _ hstep =>
    obtain ⟨f, own, l, -, -, ⟨rfl, -⟩ | ⟨l', -, rfl, -⟩⟩ := Walk.eq_of_stepLoop hstep
    · exact hw
    · exact hw
  | _ => exact hw

namespace Walk

variable {library : Library} {bound : Nat} {a : Allowance} {w v : Walk} {r q : Run} {line : String}

/-- What a line leaves of what is captured. -/
theorem IsRecording.records (h : w.IsRecording) (library : Library) (bound : Nat) (a : Allowance) (r : Run)
    (line : String) :
    LineM.wp LineM.statements (.bounded library a.includes w.next a.evals bound) (w.entering r line)
      (fun _ t => t.walk.Records w.next ∧ t.walk.buffer = w.buffer)
      fun _ t => t.walk.Records w.next ∧ t.walk.buffer = w.buffer := by
  have hdoes : LineM.wp LineM.statements (.bounded library a.includes w.next a.evals bound) (w.entering r line)
      (fun _ t => t.walk.buffer = w.buffer) fun _ t => t.walk.buffer = w.buffer :=
    LineM.wp_mono (LineM.does_statements (Setting.isTame_bounded bound)) (fun _ _ ht => ht.buffer_eq)
      fun _ _ ht => ht.buffer_eq
  have hrecords : LineM.wp LineM.statements (.bounded library a.includes w.next a.evals bound) (w.entering r line)
      (fun _ t => t.walk.Records w.next) fun _ t => t.walk.Records w.next :=
    LineM.records_statements depth_runBufferWithin rfl h.enter
  exact LineM.wp_and hrecords hdoes

/-- **What is captured stays in order from line to line.** -/
theorem isRecording_stepLine (h : w.IsRecording) (hline : w.buffer.lines[w.next]? = some line)
    (hstep : w.stepLine library (runBufferWithin library bound) a r line = some (v, q)) : v.IsRecording := by
  have hrecords := h.records library bound a r line
  have hleft {t : LineState} (ht : t.walk.Records w.next ∧ t.walk.buffer = w.buffer) :
      (t.walk.captureLine w.next line).IsRecording := ht.1.captureLine (by rw [ht.2, hline])
  obtain ⟨problem, hleave⟩ := exists_leave hstep
  obtain ⟨rfl, -⟩ := Prod.mk.inj hleave
  exact hleft (LineM.wp_stateOf hrecords)

end Walk
end Asm6502
