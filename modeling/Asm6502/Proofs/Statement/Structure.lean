/-
# What the directives do that structure the text

`IF`, `ELIF`, `ELSE`, `ENDIF`, `MACRO` and `ENDMACRO` are met whether statements
are executed or not. Each of them opens, changes or closes at most one conditional,
the innermost, and leaves the walk otherwise alone but for the macro that is
captured. The run changes only where a condition is evaluated or a captured macro
ends.

A condition is evaluated where everything around its conditional is executed and
no branch before it was. Elsewhere it is passed over, whatever it says.

Key definitions: `LineM.conditionHolds`, `Walk.Turn`, `LineM.holds`,
`LineM.PassesOver`.
Key theorems: `LineM.wp_ifBlock`, `LineM.wp_elifBlock`, `LineM.turn_perform`,
`LineM.turn_statement`, `LineM.branch_of_if`, `LineM.branch_of_elif`.
-/
import Asm6502.Proofs.Statement.Composed
import Asm6502.Proofs.Walk.Body

namespace Asm6502

/-! ### Open conditionals -/

namespace Conditional

variable {frames frames' : List Conditional}

theorem eq_of_openIf {spot : Spot} (h : openIf frames spot = .ok frames') :
    frames' = ⟨true, false, false, false, spot⟩ :: frames := by
  unfold openIf at h
  split_ifs at h
  cases h
  rfl

/-- The frame of an `IF` of which no branch was executed stays as it is. -/
theorem stop_eq {f : Conditional} (h : f.passed = false) :
    ({ f with condition := f.condition && !f.passed } : Conditional) = f := by
  rw [h, Bool.not_false, Bool.and_true, ← h]

theorem eq_of_startElif {wanted : Bool} (h : startElif frames = .ok (wanted, frames')) :
    ∃ f rest, frames = f :: rest ∧ f.isMacro = false ∧ f.hadElse = false ∧ wanted = !f.passed ∧
      frames' = { f with condition := f.condition && !f.passed } :: rest := by
  cases frames with
  | nil => cases h
  | cons f rest =>
    simp only [startElif] at h
    split_ifs at h with hmacro helse hpassed
    · cases h
      exact ⟨f, rest, rfl, by simpa using hmacro, by simpa using helse, by simp [hpassed], by simp [hpassed]⟩
    · cases h
      have hpassed : f.passed = false := by simpa using hpassed
      exact ⟨f, rest, rfl, by simpa using hmacro, by simpa using helse, by simp [hpassed], by rw [stop_eq hpassed]⟩

theorem eq_of_startElse (h : startElse frames = .ok frames') :
    ∃ f rest, frames = f :: rest ∧ f.isMacro = false ∧ f.hadElse = false ∧
      frames' = { f with hadElse := true, condition := !f.passed, passed := true } :: rest := by
  cases frames with
  | nil => cases h
  | cons f rest =>
    simp only [startElse] at h
    split_ifs at h with hmacro helse
    cases h
    exact ⟨f, rest, rfl, by simpa using hmacro, by simpa using helse, rfl⟩

theorem eq_of_close (h : close frames = .ok frames') : ∃ f, frames = f :: frames' ∧ f.isMacro = false := by
  cases frames with
  | nil => cases h
  | cons f rest =>
    simp only [close] at h
    split_ifs at h with hmacro
    cases h
    exact ⟨f, rfl, by simpa using hmacro⟩

end Conditional

namespace LineM

variable {env : Setting} {s t : LineState} {start : Nat} {Q : Unit → LineState → Prop} {E : Stop → LineState → Prop}

/-! ### Conditions -/

/-- Whether the condition at the cursor is a number that is not zero. -/
def conditionHolds (env : Setting) (s : LineState) : Bool :=
  match Expr.evaluate (context env s) env.allowance.evals s.cursor.skipBlanks (evaluation s) with
  | .ok e _ => e.value.number.toOption.any (· != 0)
  | .error _ _ => false

/-- What reading a condition comes to: it is set, or the walk stays as it was. -/
theorem wp_condition
    (hread : ∀ t, t.walk = { s.walk with
      conditionals := Conditional.setCondition (conditionHolds env s) s.walk.conditionals } → Q () t)
    (hfail : ∀ problem t, t.walk = s.walk → E (.problem problem) t) : wp condition env s Q E := by
  simp only [condition, wp_bind, wp_skipBlanks, wp_column, wp_evaluate, wp_ofFault]
  refine ⟨fun e after heval => ⟨fun n hn => ?_, fun _ _ => hfail _ _ rfl⟩, fun _ _ _ => hfail _ _ rfl⟩
  have hholds : conditionHolds env s = (n != 0) := by
    have heval : Expr.evaluate (context env s) env.allowance.evals s.cursor.skipBlanks (evaluation s) = .ok e after :=
      heval
    rw [conditionHolds, heval]
    dsimp only
    rw [hn]
    rfl
  refine wp_expectEnd (fun _ => ?_) fun _ => hfail _ _ rfl
  simp only [changeConditionals, wp_bind, wp_getWalk, wp_ofFault, wp_setWalk, wp_pushPart]
  refine ⟨fun conditionals hset => hread _ ?_, fun _ hnone => by cases hnone⟩
  cases hset
  rw [hholds]
  rfl

/-- What an `IF` comes to. Its condition is passed over where statements are not
executed. -/
theorem wp_ifBlock
    (hskip : s.walk.isLive = false → Q () { s with
      cursor := s.cursor.skipStatement
      walk.conditionals := ⟨false, false, false, false, ⟨env.index, start⟩⟩ :: s.walk.conditionals })
    (hread : s.walk.isLive = true → ∀ t, t.walk = { s.walk with
      conditionals := ⟨conditionHolds env s, conditionHolds env s, false, false, ⟨env.index, start⟩⟩ ::
        s.walk.conditionals } → Q () t)
    (hfull : ∀ problem, E (.problem problem) s)
    (hfail : s.walk.isLive = true → ∀ problem t, t.walk = { s.walk with
      conditionals := ⟨false, false, false, false, ⟨env.index, start⟩⟩ :: s.walk.conditionals } →
        E (.problem problem) t) : wp (ifBlock start) env s Q E := by
  simp only [ifBlock, changeConditionals, wp_bind, wp_getWalk, wp_spot, wp_ofFault, wp_setWalk]
  refine ⟨fun conditionals hopen => ?_, fun _ _ => hfull _⟩
  cases hopened : Conditional.openIf s.walk.conditionals ⟨env.index, start⟩ with
  | error fault =>
    rw [hopened] at hopen
    cases hopen
  | ok frames =>
    obtain rfl := Conditional.eq_of_openIf hopened
    rw [hopened] at hopen
    cases hopen
    rw [wp_ite]
    split_ifs with hlive
    · exact wp_condition (fun t ht => hread hlive t ht) fun problem t ht => hfail hlive problem t ht
    · exact hskip (by simpa using hlive)

/-- What an `ELIF` comes to. Its condition is passed over if a branch was executed
or if something around the conditional is not executed. -/
theorem wp_elifBlock
    (hskip : ∀ f frames, s.walk.conditionals = f :: frames → f.isMacro = false → f.hadElse = false →
      (f.passed = true ∨ s.walk.isOuterLive = false) → Q () { s with
        cursor := s.cursor.skipStatement
        walk.conditionals := { f with condition := f.condition && !f.passed } :: frames })
    (hread : ∀ f frames, s.walk.conditionals = f :: frames → f.isMacro = false → f.hadElse = false →
      f.passed = false → s.walk.isOuterLive = true → ∀ t, t.walk = { s.walk with
        conditionals := { f with condition := conditionHolds env s, passed := conditionHolds env s } :: frames } →
          Q () t)
    (hstray : ∀ problem, E (.problem problem) s)
    (hfail : ∀ f frames, s.walk.conditionals = f :: frames → f.isMacro = false →
      s.walk.isOuterLive = true → ∀ problem t, t.walk = s.walk → E (.problem problem) t) :
    wp (elifBlock start) env s Q E := by
  simp only [elifBlock, wp_bind, wp_getWalk, wp_ofFault, wp_setWalk]
  refine ⟨fun started hstart => ?_, fun _ _ => hstray _⟩
  obtain ⟨wanted, conditionals⟩ := started
  obtain ⟨f, frames, hframes, hmacro, helse, rfl, rfl⟩ := Conditional.eq_of_startElif hstart
  have houter : (⟨s.walk.buffer, s.walk.next, s.walk.resumeColumn, s.walk.rewound, s.walk.inherited, s.walk.own,
      { f with condition := f.condition && !f.passed } :: frames, s.walk.capture⟩ : Walk).isOuterLive =
        s.walk.isOuterLive := by
    rw [Walk.isOuterLive, Walk.isOuterLive, hframes]
    rfl
  rw [wp_ite]
  dsimp only
  rw [houter]
  split_ifs with hwanted
  · obtain ⟨hpassed, hlive⟩ : f.passed = false ∧ s.walk.isOuterLive = true := by simpa using hwanted
    have hwalk : ({ s.walk with conditionals := { f with condition := f.condition && !f.passed } :: frames } : Walk) =
        s.walk := by
      rw [Conditional.stop_eq hpassed, ← hframes]
    refine wp_condition (fun t ht => ?_) fun problem t ht => ?_
    · refine hread f frames hframes hmacro helse hpassed hlive t (ht.trans ?_)
      change ({ s.walk with conditionals := { f with condition := _, passed := f.passed || _ } :: frames } : Walk) = _
      rw [hpassed, Bool.false_or]
      rfl
    · exact hfail f frames hframes hmacro hlive problem t (ht.trans hwalk)
  · have hpassed : f.passed = true ∨ s.walk.isOuterLive = false := by
      cases hpassed : f.passed with
      | true => exact Or.inl rfl
      | false => exact Or.inr (by simpa [hpassed] using hwanted)
    exact hskip f frames hframes hmacro helse hpassed

/-- What an `ELSE` comes to. -/
theorem wp_elseBlock
    (hdone : ∀ f frames, s.walk.conditionals = f :: frames → f.isMacro = false → f.hadElse = false →
      Q () { s with
        cursor := s.cursor.skipBlanks
        walk.conditionals := { f with condition := !f.passed, passed := true, hadElse := true } :: frames })
    (hfail : ∀ problem, E (.problem problem) { s with cursor := s.cursor.skipBlanks }) :
    wp (elseBlock start) env s Q E := by
  simp only [elseBlock, changeConditionals, wp_bind]
  refine wp_expectEnd (fun _ => ?_) hfail
  simp only [wp_getWalk, wp_ofFault, wp_setWalk]
  refine ⟨fun conditionals hstart => ?_, fun _ _ => hfail _⟩
  obtain ⟨f, frames, hframes, hmacro, helse, rfl⟩ := Conditional.eq_of_startElse hstart
  exact hdone f frames hframes hmacro helse

/-- What an `ENDIF` comes to. -/
theorem wp_endif
    (hdone : ∀ f frames, s.walk.conditionals = f :: frames → f.isMacro = false →
      Q () { s with cursor := s.cursor.skipBlanks, walk.conditionals := frames })
    (hfail : ∀ problem, E (.problem problem) { s with cursor := s.cursor.skipBlanks }) :
    wp (endif start) env s Q E := by
  simp only [endif, changeConditionals, wp_bind]
  refine wp_expectEnd (fun _ => ?_) hfail
  simp only [wp_getWalk, wp_ofFault, wp_setWalk]
  refine ⟨fun conditionals hclose => ?_, fun _ _ => hfail _⟩
  obtain ⟨f, hframes, hmacro⟩ := Conditional.eq_of_close hclose
  exact hdone f conditionals hframes hmacro

end LineM

/-! ### Turns -/

/-- What a directive that structures the text does to a walk and a run, whether it
succeeds or stops. -/
inductive Walk.Turn (w : Walk) (r : Run) : Directive → Walk → Run → Prop
  | keeps {d : Directive} : Turn w r d w r
  | opens {f : Conditional} {r' : Run} (hf : f.isMacro = false) (hrun : w.isLive = false → r' = r) :
      Turn w r .ifBlock { w with conditionals := f :: w.conditionals } r'
  | changes {d : Directive} {f f' : Conditional} {frames : List Conditional} {r' : Run}
      (hd : d = .elifBlock ∨ d = .elseBlock) (hframes : w.conditionals = f :: frames) (hf : f'.isMacro = false)
      (hrun : w.isOuterLive = false → r' = r) : Turn w r d { w with conditionals := f' :: frames } r'
  | closes {f : Conditional} {frames : List Conditional} (hframes : w.conditionals = f :: frames) :
      Turn w r .endif { w with conditionals := frames } r
  | defines {f : Conditional} {capture : Option Capture} (hf : f.isMacro = true)
      (hcapture : w.isLive = false → capture = none) :
      Turn w r .macroHeader { w with conditionals := f :: w.conditionals, capture } r
  | ends {f : Conditional} {frames : List Conditional} {r' : Run} (hframes : w.conditionals = f :: frames)
      (hf : f.isMacro = true) (hrun : w.capture = none → r' = r) :
      Turn w r .endMacro { w with conditionals := frames, capture := none } r'

namespace LineM

variable {env : Setting} {s : LineState} {start : Nat}

/-- Whether a step leaves walk and run as they are, also when it stops. -/
def IsIdle (m : LineM α) : Prop :=
  ∀ env s, wp m env s (fun _ t => t.walk = s.walk ∧ t.run = s.run) fun _ t => t.walk = s.walk ∧ t.run = s.run

theorem isIdle_bind {α β : Type} {x : LineM β} {f : β → LineM α} (hx : IsIdle x) (hf : ∀ b, IsIdle (f b)) :
    IsIdle (x >>= f) := by
  intro env s
  rw [wp_bind]
  refine wp_mono (hx env s) (fun b t ht => ?_) fun _ _ h => h
  refine wp_mono (hf b env t) (fun _ u hu => ?_) fun _ u hu => ?_
  · exact ⟨hu.1.trans ht.1, hu.2.trans ht.2⟩
  · exact ⟨hu.1.trans ht.1, hu.2.trans ht.2⟩

theorem isIdle_expectComma : IsIdle expectComma := by
  refine isIdle_bind (fun _ _ => And.intro rfl rfl) fun _ => isIdle_bind (fun _ _ => And.intro rfl rfl) fun _ env s => ?_
  rw [wp_ite]
  split_ifs
  · exact And.intro rfl rfl
  · exact And.intro rfl rfl

theorem isIdle_expectName : IsIdle expectName := by
  refine isIdle_bind (fun _ _ => And.intro rfl rfl) fun _ => isIdle_bind (fun _ _ => And.intro rfl rfl) fun _ env s => ?_
  rw [wp_ite]
  split_ifs
  · exact And.intro rfl rfl
  · exact And.intro rfl rfl

theorem isIdle_macroParameters : ∀ (before : List String) (steps : Nat), IsIdle (macroParameters before steps)
  | _, 0 => fun _ _ => ⟨rfl, rfl⟩
  | before, steps + 1 => by
    have hname : IsIdle (do
        skipBlanks
        let start ← column
        let name ← expectName
        pushPart (.leaf .symbol name start)
        macroParameters (before ++ [name]) steps) := by
      refine isIdle_bind (fun _ _ => And.intro rfl rfl) fun _ => isIdle_bind (fun _ _ => And.intro rfl rfl) fun _ => ?_
      refine isIdle_bind isIdle_expectName fun _ => isIdle_bind (fun _ _ => And.intro rfl rfl) fun _ => ?_
      exact isIdle_macroParameters _ steps
    refine isIdle_bind (fun _ _ => And.intro rfl rfl) fun atEnd => ?_
    intro env s
    rw [wp_ite]
    split_ifs
    · exact ⟨rfl, rfl⟩
    · revert env s
      refine isIdle_bind (fun _ _ => And.intro rfl rfl) fun _ env s => ?_
      rw [wp_ite]
      split_ifs
      · exact isIdle_bind isIdle_expectComma (fun _ => hname) env s
      · exact hname env s

/-- What a `MACRO` comes to. -/
theorem turn_macroHeader :
    wp (macroHeader start) env s (fun _ t => s.walk.Turn s.run .macroHeader t.walk t.run)
      fun _ t => s.walk.Turn s.run .macroHeader t.walk t.run := by
  have hkept {t : LineState} (ht : t.walk = s.walk ∧ t.run = s.run) :
      s.walk.Turn s.run .macroHeader t.walk t.run := by
    rw [ht.1, ht.2]
    exact .keeps
  simp only [macroHeader, wp_bind, wp_skipBlanks, wp_column]
  refine wp_mono (isIdle_expectName env _) (fun name t ht => ?_) fun _ t ht => hkept ht
  simp only [wp_pushPart, wp_getCursor]
  refine wp_mono (isIdle_macroParameters _ _ env _) (fun parameters u hu => ?_)
    fun _ u hu => hkept ⟨hu.1.trans ht.1, hu.2.trans ht.2⟩
  obtain ⟨hwalk, hrun⟩ : u.walk = s.walk ∧ u.run = s.run := ⟨hu.1.trans ht.1, hu.2.trans ht.2⟩
  simp only [wp_getWalk, wp_getRun, wp_position, wp_spot, wp_ofFault, wp_setWalk]
  refine ⟨fun w hstart => ?_, fun _ _ => hkept ⟨hwalk, hrun⟩⟩
  have hturn : s.walk.Turn s.run .macroHeader w u.run := by
    rw [hwalk] at hstart
    rw [Walk.frame_of_startMacro hstart, hrun]
    refine .defines rfl fun hlive => ?_
    rw [hlive]
    rfl
  rw [wp_ite]
  split_ifs
  · exact hturn
  · exact hturn

/-- What an `ENDMACRO` comes to. -/
theorem turn_endMacro :
    wp (endMacro start) env s (fun _ t => s.walk.Turn s.run .endMacro t.walk t.run)
      fun _ t => s.walk.Turn s.run .endMacro t.walk t.run := by
  simp only [endMacro, wp_bind]
  refine wp_expectEnd (fun _ => ?_) fun _ => .keeps
  simp only [wp_getWalk, wp_ofFault, wp_setWalk]
  refine ⟨fun ended hend => ?_, fun _ _ => .keeps⟩
  obtain ⟨definition, w⟩ := ended
  unfold Walk.endMacro at hend
  split at hend
  · rename_i f frames hframes
    split_ifs at hend with hmacro
    cases hend
    cases hcapture : s.walk.capture with
    | none => exact .ends hframes hmacro fun _ => rfl
    | some c => exact .ends hframes hmacro fun hnone => by simp [hcapture] at hnone
  · cases hend

/-- What the directives come to that are met everywhere. -/
theorem turn_perform {d : Directive} (hd : d.isStructural = true) :
    wp (perform d start) env s (fun _ t => s.walk.Turn s.run d t.walk t.run)
      fun _ t => s.walk.Turn s.run d t.walk t.run := by
  cases d with
  | comment => exact .keeps
  | separator => exact .keeps
  | ifBlock =>
    refine wp_ifBlock (fun _ => .opens rfl fun _ => rfl) (fun hlive t ht => ?_) (fun _ => .keeps) fun hlive _ t ht => ?_
    · rw [ht]
      exact .opens rfl fun hdead => by simp [hlive] at hdead
    · rw [ht]
      exact .opens rfl fun hdead => by simp [hlive] at hdead
  | elifBlock =>
    refine wp_elifBlock (fun f frames hframes hmacro _ _ => ?_) (fun f frames hframes hmacro _ _ hlive t ht => ?_)
      (fun _ => .keeps) fun f frames hframes hmacro hlive _ t ht => ?_
    · exact .changes (Or.inl rfl) hframes hmacro fun _ => rfl
    · rw [ht]
      exact .changes (Or.inl rfl) hframes hmacro fun hdead => by simp [hlive] at hdead
    · -- the frame is replaced by itself
      have hsame : ({ s.walk with conditionals := f :: frames } : Walk) = s.walk := by rw [← hframes]
      have hturn : s.walk.Turn s.run .elifBlock { s.walk with conditionals := f :: frames } t.run :=
        .changes (Or.inl rfl) hframes hmacro fun hdead => by simp [hlive] at hdead
      rw [hsame] at hturn
      rw [ht]
      exact hturn
  | elseBlock =>
    refine wp_elseBlock (fun f frames hframes hmacro _ => ?_) fun _ => .keeps
    exact .changes (Or.inr rfl) hframes hmacro fun _ => rfl
  | endif => exact wp_endif (fun f frames hframes _ => .closes hframes) fun _ => .keeps
  | macroHeader => exact turn_macroHeader
  | endMacro => exact turn_endMacro
  | _ => cases hd

/-! ### Statements -/

/-- What a directive that is met everywhere does as a statement. -/
theorem turn_statement {d : Directive} (h : directive? s = some d) (hd : d.isStructural = true) :
    wp statement env s (fun _ t => s.walk.Turn s.run d t.walk t.run)
      fun _ t => s.walk.Turn s.run d t.walk t.run := by
  obtain ⟨spelling, hfind⟩ := find?_of_directive? h
  apply wp_statement_directive h hfind
  exact wp_mono (turn_perform hd) (fun _ _ ht _ => ht) fun _ _ ht => ht

/-- What a statement does that is no directive, or one that is passed over: it
leaves the walk as it is, and where statements are not executed it does nothing. -/
theorem walk_statement (h : directive? s = none) :
    wp statement env s (fun _ t => t.walk = s.walk ∧ (s.walk.isLive = false → t.run = s.run))
      fun _ t => t.walk = s.walk ∧ (s.walk.isLive = false → t.run = s.run) := by
  have hstays : Stays env .whole Doing.Any statement s := stays_statement h (fun _ _ => trivial) trivial trivial
  have hlive {m : LineM Unit} {u : LineState} (hlive : s.walk.isLive = true) :
      wp m env u (fun _ t => s.walk.isLive = false → t.run = s.run) fun _ t => s.walk.isLive = false → t.run = s.run := by
    unfold wp
    split <;> exact fun hdead => absurd (hlive.symm.trans hdead) (by decide)
  have hdead : wp statement env s (fun _ t => s.walk.isLive = false → t.run = s.run)
      fun _ t => s.walk.isLive = false → t.run = s.run :=
    wp_statement_of_none h (fun _ => rfl) (fun h _ => hlive h) fun h _ => hlive h
  exact wp_mono (wp_and hstays hdead) (fun _ _ ht => ⟨ht.1.2.1, ht.2⟩) fun _ _ ht => ⟨ht.1.1, ht.2⟩

/-- A statement neither turns to a branch nor ends an iteration nor executes a text if
it is none of the directives that do. -/
theorem conditionals_statement (hturning : doing? s ≠ some .turning) (hinlining : doing? s ≠ some .inlining) :
    wp statement env s (fun _ t => t.walk.conditionals = s.walk.conditionals ∧ t.walk.capture = s.walk.capture ∧
        (doing? s ≠ some .stepping → t.walk.rewound = s.walk.rewound))
      fun _ t => t.walk.conditionals = s.walk.conditionals ∧ t.walk.capture = s.walk.capture ∧
        (doing? s ≠ some .stepping → t.walk.rewound = s.walk.rewound) := by
  exact wp_mono deeds_statement (fun _ _ ht => ht.conditionals_eq hturning hinlining)
    fun _ _ ht => ht.conditionals_eq hturning hinlining

/-- A statement that neither structures the text nor ends an iteration nor executes a
text changes at most scopes of its walk. -/
theorem flat_statement (hflat : ∀ d, directive? s = some d → d.isStructural = false ∧ d ≠ .next ∧ d ≠ .asm) :
    wp statement env s (fun _ t => t.walk.rewound = s.walk.rewound ∧ t.walk.capture = s.walk.capture ∧
        t.walk.conditionals = s.walk.conditionals) fun _ _ => True := by
  have hturning : doing? s ≠ some .turning := by
    intro h
    obtain ⟨d, hd, hstructural⟩ := isStructural_of_turning h
    exact absurd hstructural (by rw [(hflat d hd).1]; decide)
  have hinlining : doing? s ≠ some .inlining := fun h => (hflat _ (doing?_eq_inlining.mp h)).2.2 rfl
  have hstepping : doing? s ≠ some .stepping := fun h => (hflat _ (doing?_eq_stepping.mp h)).2.1 rfl
  exact wp_mono (conditionals_statement hturning hinlining) (fun _ _ ht => ⟨ht.2.2 hstepping, ht.2.1, ht.1⟩)
    fun _ _ _ => trivial

/-! ### Branches -/

/-- Whether the branch that begins with the directive at the cursor is executed if
none before it was: its condition holds, or it is that of an `ELSE`. -/
def holds (env : Setting) (s : LineState) : Bool :=
  match Directive.find? s.cursor.rest with
  | some (_, .elseBlock) => true
  | some (spelling, _) => conditionHolds env { s with cursor := s.cursor.skip spelling.length, parts := #[] }
  | none => false

/-- Whether the directive at the cursor is read without its condition: what comes
after its spelling is passed over, nothing is added to its tree and the run stays
as it is. -/
def PassesOver (s t : LineState) : Prop :=
  ∃ spelling d nodes conditionals, Directive.find? s.cursor.rest = some (spelling, d) ∧
    t = { s with
      cursor := (s.cursor.skip spelling.length).skipStatement
      nodes
      parts := #[]
      walk.conditionals := conditionals }

section
variable {t : LineState} {goesOn : Bool}

/-- An `IF` opens a conditional. Its branch is executed exactly if statements are
executed there and the condition holds. -/
theorem branch_of_if (h : directive? s = some .ifBlock) (hrun : statement env s = .ok goesOn t) :
    ∃ f, t.walk.conditionals = f :: s.walk.conditionals ∧ f.isMacro = false ∧
      (s.walk.isLive = true → f.passed = holds env s ∧ f.condition = holds env s) ∧
      (s.walk.isLive = false → PassesOver s t) := by
  obtain ⟨spelling, hfind⟩ := find?_of_directive? h
  have hholds : conditionHolds env { s with cursor := s.cursor.skip spelling.length, parts := #[] } = holds env s := by
    rw [holds, hfind]
  have hstatement : wp statement env s (fun _ t => ∃ f, t.walk.conditionals = f :: s.walk.conditionals ∧
      f.isMacro = false ∧ (s.walk.isLive = true → f.passed = holds env s ∧ f.condition = holds env s) ∧
      (s.walk.isLive = false → PassesOver s t)) fun _ _ => True := by
    apply wp_statement_directive h hfind
    refine wp_ifBlock (fun hdead nodes => ?_) (fun hlive t ht nodes => ?_) (fun _ => trivial) fun _ _ _ _ => trivial
    · have hdead : s.walk.isLive = false := hdead
      refine ⟨_, rfl, rfl, fun hlive => ?_, fun _ => ⟨spelling, _, nodes, _, hfind, rfl⟩⟩
      rw [hdead] at hlive
      cases hlive
    · have hlive : s.walk.isLive = true := hlive
      rw [hholds] at ht
      refine ⟨_, congrArg Walk.conditionals ht, rfl, fun _ => ⟨rfl, rfl⟩, fun hdead => ?_⟩
      rw [hlive] at hdead
      cases hdead
  exact of_wp_ok hstatement hrun

variable {f : Conditional} {frames : List Conditional}

/-- An `ELIF` ends the branch before it. Its own is executed exactly if no branch
was, everything around the conditional is executed and the condition holds. -/
theorem branch_of_elif (h : directive? s = some .elifBlock) (hrun : statement env s = .ok goesOn t)
    (hframes : s.walk.conditionals = f :: frames) :
    ∃ f', t.walk.conditionals = f' :: frames ∧ f'.isMacro = false ∧
      (Conditional.allTrue frames = true →
        f'.passed = (f.passed || holds env s) ∧ f'.condition = (!f.passed && holds env s)) ∧
      ((Conditional.allTrue frames && !f.passed) = false → PassesOver s t) := by
  obtain ⟨spelling, hfind⟩ := find?_of_directive? h
  have hholds : conditionHolds env { s with cursor := s.cursor.skip spelling.length, parts := #[] } = holds env s := by
    rw [holds, hfind]
  have houter : s.walk.isOuterLive = Conditional.allTrue frames := by
    rw [Walk.isOuterLive, hframes]
    rfl
  have hstatement : wp statement env s (fun _ t => ∃ f', t.walk.conditionals = f' :: frames ∧ f'.isMacro = false ∧
      (Conditional.allTrue frames = true →
        f'.passed = (f.passed || holds env s) ∧ f'.condition = (!f.passed && holds env s)) ∧
      ((Conditional.allTrue frames && !f.passed) = false → PassesOver s t)) fun _ _ => True := by
    apply wp_statement_directive h hfind
    refine wp_elifBlock (fun g rest hrest hmacro _ hskips nodes => ?_)
      (fun g rest hrest hmacro _ hpassed hlive t ht nodes => ?_) (fun _ => trivial) fun _ _ _ _ _ _ _ _ => trivial
    · obtain ⟨rfl, rfl⟩ : f = g ∧ frames = rest := List.cons.inj (hframes.symm.trans hrest)
      refine ⟨_, rfl, hmacro, fun hlive => ?_, fun _ => ⟨spelling, _, nodes, _, hfind, rfl⟩⟩
      have hpassed : f.passed = true := by
        rcases hskips with hpassed | hdead
        · exact hpassed
        · rw [show s.walk.isOuterLive = false from hdead] at houter
          rw [← houter] at hlive
          cases hlive
      simp [hpassed]
    · obtain ⟨rfl, rfl⟩ : f = g ∧ frames = rest := List.cons.inj (hframes.symm.trans hrest)
      have hlive : Conditional.allTrue frames = true := houter.symm.trans hlive
      rw [hholds] at ht
      refine ⟨_, congrArg Walk.conditionals ht, hmacro, fun _ => ?_, fun hdead => ?_⟩
      · rw [hpassed]
        exact ⟨rfl, rfl⟩
      · rw [hlive, hpassed] at hdead
        cases hdead
  exact of_wp_ok hstatement hrun

/-- An `ELSE` ends the branch before it. Its own is executed exactly if no branch
was and everything around the conditional is executed. -/
theorem branch_of_else (h : directive? s = some .elseBlock) (hrun : statement env s = .ok goesOn t)
    (hframes : s.walk.conditionals = f :: frames) :
    ∃ f', t.walk.conditionals = f' :: frames ∧ f'.isMacro = false ∧ holds env s = true ∧ t.run = s.run ∧
      f'.passed = true ∧ f'.condition = !f.passed := by
  obtain ⟨spelling, hfind⟩ := find?_of_directive? h
  have hholds : holds env s = true := by rw [holds, hfind]
  have hstatement : wp statement env s (fun _ t => ∃ f', t.walk.conditionals = f' :: frames ∧ f'.isMacro = false ∧
      holds env s = true ∧ t.run = s.run ∧ f'.passed = true ∧ f'.condition = !f.passed) fun _ _ => True := by
    apply wp_statement_directive h hfind
    refine wp_elseBlock (fun g rest hrest hmacro _ nodes => ?_) fun _ => trivial
    obtain ⟨rfl, rfl⟩ : f = g ∧ frames = rest := List.cons.inj (hframes.symm.trans hrest)
    exact ⟨_, rfl, hmacro, hholds, rfl, rfl, rfl⟩
  exact of_wp_ok hstatement hrun

/-- An `ENDIF` closes the conditional. -/
theorem branch_of_endif (h : directive? s = some .endif) (hrun : statement env s = .ok goesOn t)
    (hframes : s.walk.conditionals = f :: frames) : t.walk.conditionals = frames ∧ t.run = s.run := by
  obtain ⟨spelling, hfind⟩ := find?_of_directive? h
  have hstatement : wp statement env s (fun _ t => t.walk.conditionals = frames ∧ t.run = s.run)
      fun _ _ => True := by
    apply wp_statement_directive h hfind
    refine wp_endif (fun g rest hrest _ nodes => ?_) fun _ => trivial
    obtain ⟨-, rfl⟩ : f = g ∧ frames = rest := List.cons.inj (hframes.symm.trans hrest)
    exact ⟨rfl, rfl⟩
  exact of_wp_ok hstatement hrun

end
end LineM
end Asm6502
