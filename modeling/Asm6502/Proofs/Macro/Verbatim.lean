/-
# Macros are captured verbatim

A definition of a macro begins with a header that raises no problem and goes on to
the first `ENDMACRO` that closes it. What stands between them is any text: strings,
conditionals, statements that raise problems. All the way scopes and run stay as
they are, but for what is shown of the run. In the first pass, where statements are
executed, the lines between are what becomes the body of the macro, and a buffer
that expands the macro has just these lines, under their own numbers.

A later pass that begins the definition again passes over the same lines, and no
pass but the first changes the macros of the table.

Key definitions: `Stage.DefinitionStep`, `Stage.Definition.IsMet`,
`Stage.Definition.Defines`, `Stage.Definition.IsSkipped`.
Key theorems: `Stage.DefinitionStep.inDefinition`, `Stage.DefinitionTrace.alike`,
`Stage.definition_captured_verbatim`.
-/
import Asm6502.Proofs.Macro.Passing
import Asm6502.Proofs.Macro.Table
import Asm6502.Proofs.Walk.Branch

namespace Asm6502

/-! ### The header and the end -/

/-- The name in the header of a macro, and its column. -/
def Cursor.macroName? (c : Cursor) : Option (String × Nat) :=
  (Directive.find? c.rest).map fun found =>
    ((c.skip found.1.length).skipBlanks.name.1, (c.skip found.1.length).skipBlanks.column)

namespace LineM

variable {env : Setting} {s t : LineState} {start : Nat} {f : Conditional} {outer inner : List Conditional}

/-- Whether a header begins to capture a macro. -/
def Captures (s : LineState) : Bool := s.walk.isLive && s.run.pass == .first

/-- A header that begins a definition, with the macro of this name. -/
structure Begins (env : Setting) (s : LineState) (name : String) (column : Nat) (t : LineState) : Prop where
  run : t.run = s.run
  walk : ∃ f parameters, f.isMacro = true ∧ f.condition = false ∧
    t.walk = { s.walk with
      conditionals := f :: s.walk.conditionals
      capture := if Captures s then
          some ⟨{ Macro.ofHeader name (s.walk.buffer.position env.index column) with parameters }, env.index⟩
        else none }
  new : Captures s = true → s.run.macros.contains name = false

theorem begins_macroHeader :
    wp (macroHeader start) env s
      (fun _ t => Begins env s s.cursor.skipBlanks.name.1 s.cursor.skipBlanks.column t) fun _ _ => True := by
  simp only [macroHeader, wp_bind, wp_skipBlanks, wp_column, wp_expectName, Cursor.skipBlanks_skipBlanks]
  split_ifs
  simp only [wp_pushPart, wp_getCursor]
  refine wp_mono (isIdle_macroParameters _ _ env _) (fun parameters u hu => ?_) fun _ _ _ => trivial
  obtain ⟨hwalk, hrun⟩ : u.walk = s.walk ∧ u.run = s.run := hu
  simp only [wp_getWalk, wp_getRun, wp_position, wp_spot, wp_ofFault, wp_setWalk]
  refine ⟨fun w hstart => ?_, fun _ _ => trivial⟩
  have hstart := Walk.frame_of_startMacro hstart
  rw [wp_ite]
  split_ifs with hduplicate
  · trivial
  rw [hwalk, hrun] at hstart hduplicate
  have hnew (h : Captures s = true) : s.run.macros.contains s.cursor.skipBlanks.name.1 = false := by
    unfold Captures at h
    rw [h, Bool.true_and] at hduplicate
    simpa using hduplicate
  suffices hw : w = { s.walk with
      conditionals := ⟨false, false, false, true, ⟨env.index, start⟩⟩ :: s.walk.conditionals
      capture := if Captures s then
          some ⟨{ Macro.ofHeader s.cursor.skipBlanks.name.1
            (s.walk.buffer.position env.index s.cursor.skipBlanks.column) with parameters }, env.index⟩
        else none } by
    exact ⟨hrun, ⟨_, parameters, rfl, rfl, hw⟩, hnew⟩
  rw [hstart]
  cases hcaptures : Captures s with
  | false =>
    unfold Captures at hcaptures
    rw [hcaptures]
    rfl
  | true =>
    have hnew := hnew hcaptures
    unfold Captures at hcaptures
    rw [hcaptures, hnew]
    rfl

theorem begins_statement (hd : directive? s = some .macroHeader) {goesOn : Bool}
    (hrun : statement env s = .ok goesOn t) :
    ∃ name column, s.cursor.macroName? = some (name, column) ∧ Begins env s name column t := by
  obtain ⟨spelling, hfind⟩ := find?_of_directive? hd
  refine ⟨_, _, by rw [Cursor.macroName?, hfind]; rfl, ?_⟩
  have hbegins : wp statement env s (fun _ t => Begins env s
      (s.cursor.skip spelling.length).skipBlanks.name.1 (s.cursor.skip spelling.length).skipBlanks.column t)
      fun _ _ => True := by
    apply wp_statement_directive hd hfind
    exact wp_mono begins_macroHeader (fun _ t ht nodes => ⟨ht.run, ht.walk, ht.new⟩) fun _ _ _ => trivial
  have ht := of_wp_ok hbegins hrun
  exact ht

/-- The run with the macro that is captured, if one is. -/
def withCaptured (s : LineState) : Run :=
  match s.walk.capture with
  | some c => { s.run with macros := s.run.macros.add c.definition }
  | none => s.run

theorem closes_statement (hs : s.walk.IsDefining f outer inner) (hd : directive? s = some .endMacro) {goesOn : Bool}
    (hrun : statement env s = .ok goesOn t) :
    inner = [] ∧ t.walk = { s.walk with conditionals := outer, capture := none } ∧ t.run = withCaptured s := by
  obtain ⟨spelling, hfind⟩ := find?_of_directive? hd
  have hcloses : wp statement env s
      (fun _ t => inner = [] ∧ t.walk = { s.walk with conditionals := outer, capture := none } ∧
        t.run = withCaptured s) fun _ _ => True := by
    apply wp_statement_directive hd hfind
    change wp (endMacro _) env _ _ _
    simp only [endMacro, wp_bind]
    refine wp_expectEnd (fun _ => ?_) fun _ => trivial
    simp only [wp_getWalk, wp_ofFault, wp_setWalk]
    refine ⟨fun ended hended => ?_, fun _ _ => trivial⟩
    obtain ⟨hinner, rfl⟩ := hs.eq_of_endMacro hended
    unfold withCaptured
    cases hcapture : s.walk.capture with
    | none => exact fun _ => ⟨hinner, rfl, rfl⟩
    | some c => exact fun _ => ⟨hinner, rfl, rfl⟩
  have ht := of_wp_ok hcloses hrun
  exact ht

/-- **An `ENDMACRO` that closes a definition does so on both walks.** -/
theorem closes_alike {env' : Setting} {u : LineState} {f' : Conditional} {outer' inner' : List Conditional}
    (hs : s.walk.IsDefining f outer inner) (hs' : u.walk.IsDefining f' outer' inner')
    (hsame : SameOutline inner inner') (hcursor : u.cursor = s.cursor)
    (hrewound : s.walk.rewound = false) (hrewound' : u.walk.rewound = false) (hrest : s.cursor.rest ≠ [])
    (hd : directive? s = some .endMacro) {goesOn : Bool} (hrun : statement env s = .ok goesOn t) :
    directive? u = some .endMacro ∧ ∃ t', statement env' u = .ok true t' := by
  obtain ⟨-, -, houtline, -⟩ := of_wp_ok (stepsOver_statement hs hrewound hrest) hrun
  obtain ⟨rfl, -, -⟩ := closes_statement hs hd hrun
  obtain rfl : inner' = [] := List.map_eq_nil_iff.mp hsame
  have hdirective := directive?_cursor hd
  obtain ⟨hassignment, spelling, hfind⟩ := Cursor.find?_of_directive? hdirective
  rw [Cursor.outlineOf?_of_isBlock hassignment hfind rfl] at houtline
  have hstatement' : wp statement env' u _ _ := stepsOver_statement hs' hrewound' (by rwa [hcursor])
  refine ⟨directive?_of_met (by rwa [hcursor]) (Or.inr rfl), ?_⟩
  cases hrun' : statement env' u with
  | error stop t' =>
    have hnone := (of_wp_error hstatement' hrun').2
    rw [hcursor, Cursor.outlineOf?_of_isBlock hassignment hfind rfl, hs'.outline_eq] at hnone
    split_ifs at houtline hnone
    simp [Directive.reshape?, Conditional.outline, hs'.isMacro] at hnone
  | ok goesOn' t' =>
    obtain rfl := (of_wp_ok hstatement' hrun').1
    exact ⟨t', rfl⟩

end LineM

theorem Run.IsKept.isCancelled_eq {r r' : Run} (h : r.IsKept r') : r'.isCancelled = r.isCancelled := by
  obtain ⟨_, _, rfl⟩ := h
  rfl

/-! ### Stages of a definition -/

namespace Stage

variable {library : Library} {allowance : Allowance} {p q : Stage} {buffer : Buffer} {f : Conditional}
  {outer inner : List Conditional}

/-- The index of the line at hand, or of the next one. -/
def index : Stage → Nat
  | before _ w _ => w.next
  | inside _ index _ _ _ => index

/-- Where in the text a walk is. -/
def place : Stage → Nat × Option Cursor
  | before _ w _ => (w.next, none)
  | inside _ index _ _ s => (index, some s.cursor.skipBlanks)

/-- The name in the header of a macro that is executed next, and its column. -/
def macroName? : Stage → Option (String × Nat)
  | before _ _ _ => none
  | inside _ _ _ _ s => s.cursor.skipBlanks.macroName?

/-- Whether a line is followed by the next one, which is read from its beginning,
unless a loop moves the walk back. -/
def GoesForward : Stage → Prop
  | before _ _ _ => True
  | inside _ index _ _ s => s.walk.rewound = false → s.walk.next = index + 1 ∧ s.walk.resumeColumn = 0

theorem Advances.goesForward (h : Advances library allowance p q) (hp : p.GoesForward) : q.GoesForward := by
  cases h with
  | enters => exact fun _ => ⟨rfl, rfl⟩
  | @executes bound index line record s t hrest hrun =>
    refine (comes_of_execute_ok hrest (fun _ => trivial) hrun).keeps
      (P := fun w _ => w.rewound = false → w.next = index + 1 ∧ w.resumeColumn = 0) (fun x y he hx => ?_) hp
    cases he with
    | stepped _ hstep =>
      obtain ⟨_, _, _, -, -, ⟨rfl, -⟩ | ⟨_, -, rfl, -⟩⟩ := Walk.eq_of_stepLoop hstep
      · exact hx
      · exact fun hrewound => by cases hrewound
    | _ => exact hx
  | _ => trivial

/-- A stage of a walk that reads the lines of a buffer. -/
structure IsReading (buffer : Buffer) (p : Stage) : Prop where
  buffer_eq : p.walk.buffer = buffer
  onLine : p.IsOnLine buffer
  forward : p.GoesForward

theorem isReading_path {bound : Nat} {frames : List Frame} {r : Run}
    (h : Relation.ReflTransGen (Advances library allowance) (before bound (.start buffer frames) r) p) :
    p.IsReading buffer := by
  have hwithin {q : Stage} (hq : Relation.ReflTransGen (Advances library allowance) (before bound (.start buffer frames) r) q) :
      q.walk.IsWithin buffer frames := isWithin_path hq (Walk.isWithin_start buffer frames)
  induction h with
  | refl => exact ⟨rfl, trivial, trivial⟩
  | tail hpath hstep ih =>
    exact ⟨(hstep.isWithin (hwithin hpath)).buffer_eq, hstep.isOnLine (hwithin hpath) ih.onLine,
      hstep.goesForward ih.forward⟩

/-- A stage of such a walk that is inside the definition of a macro. -/
structure InDefinition (buffer : Buffer) (f : Conditional) (outer inner : List Conditional) (p : Stage) : Prop
    extends IsReading buffer p where
  defining : p.walk.IsDefining f outer inner
  resumes : p.walk.resumeColumn = 0

/-- What is captured of a macro whose header is on the line `start`, if it is. -/
def HasCaptured (m : Option Macro) (start : Nat) (p : Stage) : Prop :=
  start ≤ p.index ∧ p.walk.capture =
    m.map fun m => ⟨{ m with body := Text.unlines (p.walk.buffer.linesBetween start p.index) }, start⟩

/-- What the lines of a definition leave alone. -/
structure LeavesAlone (p q : Stage) : Prop where
  frames : q.walk.frames = p.walk.frames
  run : p.run.IsKept q.run
  captured : ∀ m start, p.HasCaptured m start → q.HasCaptured m start

theorem LeavesAlone.refl (p : Stage) : p.LeavesAlone p := ⟨rfl, .refl _, fun _ _ h => h⟩

theorem LeavesAlone.trans {x : Stage} (h : p.LeavesAlone q) (h' : q.LeavesAlone x) : p.LeavesAlone x :=
  ⟨h'.frames.trans h.frames, h.run.trans h'.run, fun m start hp => h'.captured m start (h.captured m start hp)⟩

section
variable {bound index : Nat} {line : String} {record : Bool} {s t : LineState} {inner' : List Conditional}

theorem InDefinition.enter {w : Walk} {r : Run} (h : (before (bound + 1) w r).InDefinition buffer f outer inner)
    (hline : w.buffer.lines[w.next]? = some line) :
    (inside bound w.next line record (w.entering r line)).InDefinition buffer f outer inner ∧
      (before (bound + 1) w r).LeavesAlone (inside bound w.next line record (w.entering r line)) := by
  have hbuffer : w.buffer = buffer := h.buffer_eq
  refine ⟨⟨⟨hbuffer, ?_, fun _ => ⟨rfl, rfl⟩⟩,
    ⟨h.defining.conditionals, h.defining.isMacro, h.defining.skipped, h.defining.ifs⟩, rfl⟩, rfl, .refl _, fun m start hw => hw⟩
  rw [hbuffer] at hline
  exact ⟨hline, rfl⟩

theorem InDefinition.execute (h : (inside bound index line record s).InDefinition buffer f outer inner)
    (hs : LineM.StepsTo f outer { s with cursor := s.cursor.skipBlanks } t inner') :
    (inside bound index line record t).InDefinition buffer f outer inner' ∧
      (inside bound index line record s).LeavesAlone (inside bound index line record t) := by
  obtain ⟨hwalk, hrun, hifs⟩ := hs
  have hwalk : t.walk = { s.walk with conditionals := inner' ++ f :: outer } := hwalk
  refine ⟨⟨⟨?_, ⟨h.onLine.1, ?_⟩, fun hrewound => ?_⟩, ?_, ?_⟩, ?_, ?_, fun m start hcaptured => ?_⟩
  · change t.walk.buffer = buffer
    rw [hwalk]
    exact h.buffer_eq
  · rw [hwalk]
    exact h.onLine.2
  · rw [hwalk] at hrewound ⊢
    exact h.forward hrewound
  · change t.walk.IsDefining f outer inner'
    rw [hwalk]
    exact h.defining.change hifs
  · change t.walk.resumeColumn = 0
    rw [hwalk]
    exact h.resumes
  · change t.walk.frames = s.walk.frames
    rw [hwalk]
    rfl
  · change s.run.IsKept t.run
    rw [hrun]
    exact .refl _
  · refine ⟨hcaptured.1, ?_⟩
    change t.walk.capture = m.map fun m => ⟨{ m with body := Text.unlines (t.walk.buffer.linesBetween start index) }, start⟩
    rw [hwalk]
    exact hcaptured.2

theorem InDefinition.leave {problem : Option Problem}
    (h : (inside bound index line record s).InDefinition buffer f outer inner) :
    (left bound index line record problem s).InDefinition buffer f outer inner ∧
      (inside bound index line record s).LeavesAlone (left bound index line record problem s) := by
  obtain ⟨hline, hrewound⟩ := h.onLine
  obtain ⟨hnext, hresumes⟩ := h.forward hrewound
  have hbuffer : s.walk.buffer = buffer := h.buffer_eq
  have hw : ∃ capture, (left bound index line record problem s).walk = { s.walk with capture } :=
    s.walk.captureLine_eq index line
  obtain ⟨capture, hw⟩ := hw
  refine ⟨⟨⟨?_, trivial, trivial⟩, ?_, ?_⟩, ?_, isKept_left, fun m start hcaptured => ?_⟩
  · rw [hw]
    exact hbuffer
  · rw [hw]
    exact ⟨h.defining.conditionals, h.defining.isMacro, h.defining.skipped, h.defining.ifs⟩
  · rw [hw]
    exact hresumes
  · rw [hw]
    rfl
  · obtain ⟨hstarted, hcapture⟩ := hcaptured
    have hindex : (left bound index line record problem s).index = index + 1 := by
      change (left bound index line record problem s).walk.next = index + 1
      rw [hw]
      exact hnext
    have hcapture : s.walk.capture = m.map fun m =>
        ⟨{ m with body := Text.unlines (buffer.linesBetween start index) }, start⟩ := by
      rw [← hbuffer]
      exact hcapture
    have hstarted : start ≤ index := hstarted
    refine ⟨by omega, ?_⟩
    rw [hindex, walk_left, show (s.walk.captureLine index line).buffer = buffer by rw [← walk_left, hw]; exact hbuffer]
    unfold Walk.captureLine
    rw [hcapture]
    cases m with
    | none => exact hcapture
    | some m =>
      dsimp only [Option.map_some]
      split_ifs with hsame
      · rw [hcapture, ← hsame, Buffer.linesBetween_succ_self, Buffer.linesBetween_self]
        rfl
      · rw [Buffer.linesBetween_succ _ (Nat.lt_of_le_of_ne hstarted hsame) hline, Text.unlines_concat]
        rfl

end

/-- One step inside a definition that stays open, with at least so many conditionals. -/
structure DefinitionStep (library : Library) (allowance : Allowance) (base : Nat) (p q : Stage) : Prop where
  advances : Advances library allowance p q
  staysOpen : base ≤ q.walk.conditionals.length

/-- Steps inside a definition, one after another. -/
abbrev DefinitionPath (library : Library) (allowance : Allowance) (base : Nat) : Stage → Stage → Prop :=
  Relation.ReflTransGen (DefinitionStep library allowance base)

section
variable {bound index' : Nat} {line : String} {record : Bool} {s t : LineState}
  (h : (inside bound index' line record s).InDefinition buffer f outer inner)
  (hrest : s.cursor.skipBlanks.rest ≠ [])

include h

theorem InDefinition.skipBlanks :
    (inside bound index' line record { s with cursor := s.cursor.skipBlanks }).InDefinition buffer f outer inner :=
  ⟨⟨h.buffer_eq, h.onLine, h.forward⟩, h.defining, h.resumes⟩

/-- A state with the same walk and run. -/
theorem InDefinition.stepsTo (hwalk : t.walk = s.walk) (hrun : t.run = s.run) :
    LineM.StepsTo f outer { s with cursor := s.cursor.skipBlanks } t inner :=
  ⟨by rw [hwalk, ← h.defining.conditionals]; rfl, hrun, h.defining.ifs⟩

include hrest

theorem InDefinition.of_execute_ok {goesOn : Bool}
    (hrun : Stage.execute library allowance bound index' s = .ok goesOn t) :
    goesOn = true ∧ (outer.length < t.walk.conditionals.length →
      ∃ inner', LineM.StepsTo f outer { s with cursor := s.cursor.skipBlanks } t inner') := by
  obtain ⟨hgoesOn, -, -, hsteps⟩ := LineM.of_wp_ok
    (LineM.stepsOver_statement (s := { s with cursor := s.cursor.skipBlanks }) h.defining h.onLine.2 hrest) hrun
  exact ⟨hgoesOn, hsteps⟩

theorem InDefinition.of_execute_error {stop : Stop}
    (hrun : Stage.execute library allowance bound index' s = .error stop t) : t.walk = s.walk ∧ t.run = s.run :=
  (LineM.of_wp_error
    (LineM.stepsOver_statement (s := { s with cursor := s.cursor.skipBlanks }) h.defining h.onLine.2 hrest) hrun).1.2

end

theorem DefinitionStep.inDefinition (h : DefinitionStep library allowance (outer.length + 1) p q)
    (hp : p.InDefinition buffer f outer inner) :
    ∃ inner', q.InDefinition buffer f outer inner' ∧ p.LeavesAlone q := by
  obtain ⟨hadvances, hopen⟩ := h
  have hleft {bound index : Nat} {line : String} {record : Bool} {s t : LineState} {problem : Option Problem}
      (hp : (inside bound index line record s).InDefinition buffer f outer inner)
      (hsteps : LineM.StepsTo f outer { s with cursor := s.cursor.skipBlanks } t inner) :
      ∃ inner', (left bound index line record problem t).InDefinition buffer f outer inner' ∧
        (inside bound index line record s).LeavesAlone (left bound index line record problem t) := by
    obtain ⟨ht, hleaves⟩ := hp.execute hsteps
    obtain ⟨hleft, hleaves'⟩ := ht.leave
    exact ⟨inner, hleft, hleaves.trans hleaves'⟩
  cases hadvances with
  | enters hline => exact ⟨inner, hp.enter hline⟩
  | executes hrest hrun =>
    obtain ⟨inner', hsteps⟩ := (hp.of_execute_ok hrest hrun).2 hopen
    exact ⟨inner', hp.execute hsteps⟩
  | rewinds hrest hrun => cases (hp.of_execute_ok hrest hrun).1
  | ends => exact hleft hp (hp.stepsTo rfl rfl)
  | fails hrest hrun =>
    obtain ⟨hwalk, hrun⟩ := hp.of_execute_error hrest hrun
    exact hleft hp (hp.stepsTo hwalk hrun)

/-- **The lines of a definition leave scopes and run as they are, and are captured one
by one.** -/
theorem DefinitionPath.inDefinition (h : DefinitionPath library allowance (outer.length + 1) p q)
    (hp : p.InDefinition buffer f outer inner) :
    ∃ inner', q.InDefinition buffer f outer inner' ∧ p.LeavesAlone q := by
  induction h with
  | refl => exact ⟨inner, hp, .refl p⟩
  | tail _ hstep ih =>
    obtain ⟨inner₁, hq, hleaves⟩ := ih
    obtain ⟨inner₂, hq', hleaves'⟩ := hstep.inDefinition hq
    exact ⟨inner₂, hq', hleaves.trans hleaves'⟩

/-! ### Two walks over one definition -/

/-- Stages of two walks in the same place of a definition. The second may execute as
many lines as the first. -/
structure Alike (buffer : Buffer) (f f' : Conditional) (outer outer' : List Conditional) (p p' : Stage) : Prop where
  frames : ∃ inner inner', p.InDefinition buffer f outer inner ∧ p'.InDefinition buffer f' outer' inner' ∧
    LineM.SameOutline inner inner'
  place : p'.place = p.place
  lines : p.lines ≤ p'.lines
  goesOn : p'.run.isCancelled = false

variable {f' : Conditional} {outer' : List Conditional} {p' : Stage}

theorem exists_inside {bound index : Nat} {line : String} {record : Bool} {s : LineState}
    (h : p'.place = (inside bound index line record s).place) :
    ∃ bound' line' record' s', p' = inside bound' index line' record' s' ∧
      s'.cursor.skipBlanks = s.cursor.skipBlanks := by
  cases p' with
  | before => cases h
  | inside bound' index' line' record' s' =>
    obtain ⟨rfl, hcursor⟩ := Prod.mk.inj h
    exact ⟨bound', line', record', s', rfl, Option.some.inj hcursor⟩

/-- A line that is left on two walks. -/
theorem alike_left {bound bound' index : Nat} {line line' : String} {record record' : Bool} {s s' : LineState}
    {problem problem' : Option Problem} {inner' : List Conditional}
    (hp : (inside bound index line record s).InDefinition buffer f outer inner)
    (hp' : (inside bound' index line' record' s').InDefinition buffer f' outer' inner')
    (hsame : LineM.SameOutline inner inner') (hlines : bound ≤ bound') (hgoesOn : s'.run.isCancelled = false) :
    Alike buffer f f' outer outer' (left bound index line record problem s)
      (left bound' index line' record' problem' s') := by
  have hnext {bound index : Nat} {line : String} {record : Bool} {s : LineState} {problem : Option Problem}
      {f : Conditional} {outer inner : List Conditional}
      (hp : (inside bound index line record s).InDefinition buffer f outer inner) :
      (left bound index line record problem s).place = (index + 1, none) := by
    obtain ⟨capture, hw⟩ := s.walk.captureLine_eq index line
    change ((s.walk.captureLine index line).next, none) = _
    rw [hw, ← (hp.forward hp.onLine.2).1]
  obtain ⟨hleft', hleaves'⟩ := hp'.leave
  refine ⟨⟨inner, inner', hp.leave.1, hleft', hsame⟩, ?_, hlines, hleaves'.run.isCancelled_eq.trans hgoesOn⟩
  rw [hnext hp, hnext hp']

theorem index_ofLine {bound bound' index : Nat} :
    (Setting.ofLine library allowance bound' index).index = (Setting.ofLine library allowance bound index).index :=
  rfl

/-- **Two walks pass over a definition in step.** -/
theorem DefinitionStep.alike (h : DefinitionStep library allowance (outer.length + 1) p q)
    (hlength : outer'.length = outer.length) (hp : Alike buffer f f' outer outer' p p') :
    ∃ q', DefinitionStep library allowance (outer'.length + 1) p' q' ∧ Alike buffer f f' outer outer' q q' := by
  obtain ⟨⟨inner, inner', hdef, hdef', hsame⟩, hplace, hlines, hgoesOn⟩ := hp
  have hopen {q' : Stage} (hq' : Alike buffer f f' outer outer' q q') : outer'.length + 1 ≤ q'.walk.conditionals.length := by
    obtain ⟨_, _, _, hq', _⟩ := hq'.frames
    rw [hq'.defining.conditionals, List.length_append, List.length_cons]
    omega
  suffices hstep : ∃ q', Advances library allowance p' q' ∧ Alike buffer f f' outer outer' q q' by
    obtain ⟨q', hadvances, hq'⟩ := hstep
    exact ⟨q', ⟨hadvances, hopen hq'⟩, hq'⟩
  obtain ⟨hadvances, hstaysOpen⟩ := h
  cases hadvances with
  | @enters bound w r line hline hcancelled =>
    cases p' with
    | inside => cases hplace
    | before bound' w' r' =>
      obtain ⟨hnext, -⟩ := Prod.mk.inj hplace
      obtain ⟨k, rfl⟩ : ∃ k, bound' = k + 1 := Nat.exists_eq_succ_of_ne_zero (by
        have hlines : bound + 1 ≤ bound' := hlines
        omega)
      have hline' : w'.buffer.lines[w'.next]? = some line := by
        rw [hnext, show w'.buffer = w.buffer from hdef'.buffer_eq.trans hdef.buffer_eq.symm]
        exact hline
      refine ⟨_, .enters hline' hgoesOn, ⟨inner, inner', (hdef.enter hline).1, (hdef'.enter hline').1, hsame⟩, ?_,
        hlines, hgoesOn⟩
      have hresumes : w.resumeColumn = 0 := hdef.resumes
      have hresumes' : w'.resumeColumn = 0 := hdef'.resumes
      simp only [place, Walk.entering, hnext, hresumes, hresumes']
  | @executes bound index line record s t hrest hrun =>
    obtain ⟨bound', line', record', s', rfl, hcursor⟩ := exists_inside hplace
    obtain ⟨t', frames, frames', hrun', hplace', hsteps, hsteps', hsame'⟩ :=
      LineM.ok_alike (s := { s with cursor := s.cursor.skipBlanks }) (u := { s' with cursor := s'.cursor.skipBlanks })
        hdef.defining hdef'.defining hsame hlength index_ofLine hcursor hdef.onLine.2 hdef'.onLine.2 hrest hrun hstaysOpen
    obtain ⟨ht, -⟩ := hdef.execute hsteps
    obtain ⟨ht', hleaves'⟩ := hdef'.execute hsteps'
    refine ⟨_, .executes (by rwa [hcursor]) hrun', ⟨frames, frames', ht, ht', hsame'⟩, ?_, hlines, ?_⟩
    · simp only [place, hplace']
    · exact hleaves'.run.isCancelled_eq.trans hgoesOn
  | rewinds hrest hrun => cases (hdef.of_execute_ok hrest hrun).1
  | ends hrest =>
    obtain ⟨bound', line', record', s', rfl, hcursor⟩ := exists_inside hplace
    exact ⟨_, .ends (by rwa [hcursor]), alike_left hdef.skipBlanks hdef'.skipBlanks hsame
      (Nat.le_of_succ_le_succ hlines) hgoesOn⟩
  | @fails bound index line record s t problem hrest hrun =>
    obtain ⟨bound', line', record', s', rfl, hcursor⟩ := exists_inside hplace
    obtain ⟨problem', t', hrun', -, hwalk', hkept'⟩ :=
      LineM.error_alike (s := { s with cursor := s.cursor.skipBlanks }) (u := { s' with cursor := s'.cursor.skipBlanks })
        hdef.defining hdef'.defining hsame hlength index_ofLine hcursor hdef.onLine.2 hdef'.onLine.2 hrest hrun
    obtain ⟨hwalk, hkept⟩ := hdef.of_execute_error hrest hrun
    refine ⟨_, .fails (by rwa [hcursor]) hrun', alike_left (hdef.execute (hdef.stepsTo hwalk hkept)).1
      (hdef'.execute (hdef'.stepsTo hwalk' hkept')).1 hsame (Nat.le_of_succ_le_succ hlines) ?_⟩
    rw [hkept']
    exact hgoesOn

/-- Steps inside a definition that go through some places. -/
inductive DefinitionTrace (library : Library) (allowance : Allowance) (base : Nat) (p : Stage) :
    List (Nat × Option Cursor) → Stage → Prop
  | refl : DefinitionTrace library allowance base p [] p
  | tail {places : List (Nat × Option Cursor)} {q x : Stage} (h : DefinitionTrace library allowance base p places q)
      (hstep : DefinitionStep library allowance base q x) :
      DefinitionTrace library allowance base p (places ++ [q.place]) x

theorem DefinitionTrace.path {base : Nat} {places : List (Nat × Option Cursor)}
    (h : DefinitionTrace library allowance base p places q) : DefinitionPath library allowance base p q := by
  induction h with
  | refl => exact .refl
  | tail _ hstep ih => exact ih.tail hstep

/-- **The second walk goes through the same places as the first.** -/
theorem DefinitionTrace.alike {places : List (Nat × Option Cursor)}
    (h : DefinitionTrace library allowance (outer.length + 1) p places q)
    (hlength : outer'.length = outer.length) (hp : Alike buffer f f' outer outer' p p') :
    ∃ q', DefinitionTrace library allowance (outer'.length + 1) p' places q' ∧ Alike buffer f f' outer outer' q q' := by
  induction h with
  | refl => exact ⟨p', .refl, hp⟩
  | tail _ hstep ih =>
    obtain ⟨q', htrace', hq'⟩ := ih
    obtain ⟨x', hstep', hx'⟩ := hstep.alike hlength hq'
    rw [← hq'.place]
    exact ⟨x', htrace'.tail hstep', hx'⟩

/-! ### Definitions -/

/-- A header that is executed, with the macro that it begins to capture, if it
does. -/
structure Begins (buffer : Buffer) (f : Conditional) (m : Option Macro) (p q : Stage) : Prop where
  inDefinition : q.InDefinition buffer f p.walk.conditionals []
  frames : q.walk.frames = p.walk.frames
  run : q.run = p.run
  lines : q.lines = p.lines
  captured : q.HasCaptured m p.index
  named : p.walk.isLive = true → p.run.pass = .first → ∃ named column, m = some named ∧
    p.macroName? = some (named.name, column) ∧ named.definedAt = buffer.position p.index column ∧
    p.run.macros.contains named.name = false
  unnamed : p.run.pass ≠ .first → m = none

theorem Performs.begins (h : Performs library allowance .macroHeader p q) (hp : p.IsReading buffer) :
    ∃ f m, Begins buffer f m p q := by
  cases h with
  | @mk bound index line record s t hdirective hrun =>
    obtain ⟨name, column, hname, hrun, ⟨f, parameters, hmacro, hcondition, hwalk⟩, hnew⟩ :=
      LineM.begins_statement hdirective hrun
    obtain ⟨hline, hrewound⟩ := hp.onLine
    obtain ⟨hnext, hresumes⟩ := hp.forward hrewound
    have hbuffer : s.walk.buffer = buffer := hp.buffer_eq
    let m : Macro := { Macro.ofHeader name (buffer.position index column) with parameters }
    have hwalk : t.walk = { s.walk with
        conditionals := f :: s.walk.conditionals
        capture := if LineM.Captures s then some ⟨m, index⟩ else none } := by
      rw [hwalk]
      dsimp only
      rw [hbuffer]
      rfl
    refine ⟨f, if LineM.Captures s then some m else none, ⟨⟨?_, ⟨hline, ?_⟩, fun _ => ?_⟩, ?_, ?_⟩, ?_, hrun, rfl,
      ⟨Nat.le_refl _, ?_⟩, fun hlive hpass => ?_, fun hpass => ?_⟩
    · change t.walk.buffer = buffer
      rw [hwalk]
      exact hbuffer
    · rw [hwalk]
      exact hrewound
    · rw [hwalk]
      exact ⟨hnext, hresumes⟩
    · change t.walk.IsDefining f s.walk.conditionals []
      rw [hwalk]
      exact ⟨rfl, hmacro, hcondition, fun g hg => by cases hg⟩
    · change t.walk.resumeColumn = 0
      rw [hwalk]
      exact hresumes
    · change t.walk.frames = s.walk.frames
      rw [hwalk]
      rfl
    · change t.walk.capture = Option.map (fun m : Macro =>
        (⟨{ m with body := Text.unlines (t.walk.buffer.linesBetween index index) }, index⟩ : Capture)) _
      rw [hwalk, Buffer.linesBetween_self]
      cases LineM.Captures s <;> rfl
    · have hcaptures : LineM.Captures s = true := by
        rw [LineM.Captures, show s.walk.isLive = true from hlive, show s.run.pass = .first from hpass]
        rfl
      exact ⟨m, column, if_pos hcaptures, hname, rfl, hnew hcaptures⟩
    · have hpass : (s.run.pass == .first) = false := by
        rw [beq_eq_false_iff_ne]
        exact hpass
      rw [LineM.Captures, hpass, Bool.and_false]
      rfl

/-- The run with a macro, if there is one. -/
def withMacro (m : Option Macro) (r : Run) : Run :=
  match m with
  | some m => { r with macros := r.macros.add m }
  | none => r

/-- What an `ENDMACRO` leaves. -/
theorem Performs.closes (h : Performs library allowance .endMacro p q) (hp : p.InDefinition buffer f outer inner) :
    q.walk.conditionals = outer ∧ q.walk.frames = p.walk.frames ∧
      ∀ m start, p.HasCaptured m start → q.run =
        withMacro (m.map fun m => { m with body := Text.unlines (buffer.linesBetween start p.index) }) p.run := by
  cases h with
  | @mk bound index line record s t hdirective hrun =>
    obtain ⟨-, hwalk, hrun⟩ :=
      LineM.closes_statement (s := { s with cursor := s.cursor.skipBlanks }) hp.defining hdirective hrun
    refine ⟨?_, ?_, fun m start hcaptured => hrun.trans ?_⟩
    · change t.walk.conditionals = outer
      rw [hwalk]
    · change t.walk.frames = s.walk.frames
      rw [hwalk]
      rfl
    · have hcapture : s.walk.capture = m.map fun m =>
          ⟨{ m with body := Text.unlines (buffer.linesBetween start index) }, start⟩ := by
        rw [← hp.buffer_eq]
        exact hcaptured.2
      rw [LineM.withCaptured, hcapture]
      cases m <;> rfl

theorem Performs.place_alike {d : Directive} {q' : Stage} (hd : d.isBlock = true)
    (h : Performs library allowance d p q) (h' : Performs library allowance d p' q') (hplace : p'.place = p.place) :
    q'.place = q.place := by
  cases h with
  | @mk bound index line record s t hdirective hrun =>
    cases h' with
    | @mk bound' index' line' record' s' t' hdirective' hrun' =>
      obtain ⟨rfl, hcursor⟩ := Prod.mk.inj hplace
      have hcursor : s'.cursor.skipBlanks = s.cursor.skipBlanks := Option.some.inj hcursor
      have ht := LineM.of_wp_ok (LineM.place_of_isBlock hdirective hd) hrun
      have ht' := LineM.of_wp_ok (LineM.place_of_isBlock hdirective' hd) hrun'
      simp only [place, ht, ht', hcursor]

theorem Performs.closes_alike (h : Performs library allowance .endMacro p q)
    (hp : Alike buffer f f' outer outer' p p') : ∃ q', Performs library allowance .endMacro p' q' := by
  obtain ⟨⟨inner, inner', hdef, hdef', hsame⟩, hplace, -, -⟩ := hp
  cases h with
  | @mk bound index line record s t hdirective hrun =>
    obtain ⟨bound', line', record', s', rfl, hcursor⟩ := exists_inside hplace
    obtain ⟨hdirective', t', hrun'⟩ :=
      LineM.closes_alike (s := { s with cursor := s.cursor.skipBlanks }) (u := { s' with cursor := s'.cursor.skipBlanks })
        hdef.defining hdef'.defining hsame hcursor hdef.onLine.2 hdef'.onLine.2
        (LineM.rest_ne_nil_of_directive? hdirective) hdirective hrun
    exact ⟨_, .mk hdirective' hrun'⟩

/-- The definition of a macro: its header, what is right after it, its `ENDMACRO` and
what is right after that. -/
structure Definition where
  head : Stage
  body : Stage
  tail : Stage
  after : Stage

namespace Definition

/-- Whether a definition begins with a header that raises no problem and goes on
through some places to an `ENDMACRO` that closes it. -/
structure IsMet (library : Library) (allowance : Allowance) (places : List (Nat × Option Cursor)) (d : Definition) :
    Prop where
  begins : Performs library allowance .macroHeader d.head d.body
  path : DefinitionTrace library allowance d.body.walk.conditionals.length d.body places d.tail
  ends : Performs library allowance .endMacro d.tail d.after

/-- Nothing is executed in a definition, and all through it scopes and run stay as
they were before its header, but for what is shown of the run. After it the run is
`r`, with the same reservation, and everything else is as before. -/
structure IsSkipped (library : Library) (allowance : Allowance) (r : Run) (d : Definition) : Prop where
  within : ∀ x, DefinitionPath library allowance d.body.walk.conditionals.length d.body x →
    x.walk.isLive = false ∧ x.walk.frames = d.head.walk.frames ∧ d.head.run.IsKept x.run
  conditionals : d.after.walk.conditionals = d.head.walk.conditionals
  frames : d.after.walk.frames = d.head.walk.frames
  run : r.IsKept d.after.run

/-- The macro of a definition: it is named in the header, its name is new, and its
body are the lines between the header and the `ENDMACRO`. -/
structure Defines (buffer : Buffer) (d : Definition) (m : Macro) : Prop where
  name : ∃ column, d.head.macroName? = some (m.name, column) ∧ m.definedAt = buffer.position d.head.index column
  new : d.head.run.macros.contains m.name = false
  body : m.body = Text.unlines (buffer.linesBetween d.head.index d.tail.index)

variable {d : Definition} {places : List (Nat × Option Cursor)}

theorem isSkipped_of_begins {m : Option Macro} (hmet : d.IsMet library allowance places)
    (hbegins : Begins buffer f m d.head d.body) :
    d.IsSkipped library allowance (withMacro
      (m.map fun m => { m with body := Text.unlines (buffer.linesBetween d.head.index d.tail.index) }) d.head.run) := by
  have hbase : d.body.walk.conditionals.length = d.head.walk.conditionals.length + 1 := by
    rw [hbegins.inDefinition.defining.conditionals]
    rfl
  have hpath := hmet.path.path
  rw [hbase] at hpath
  obtain ⟨inner, htail, hleaves⟩ := hpath.inDefinition hbegins.inDefinition
  obtain ⟨hconditionals, hframes, hrun⟩ := hmet.ends.closes htail
  refine ⟨fun x hx => ?_, hconditionals, (hframes.trans hleaves.frames).trans hbegins.frames, ?_⟩
  · rw [hbase] at hx
    obtain ⟨inner', hx, hleaves⟩ := hx.inDefinition hbegins.inDefinition
    exact ⟨hx.defining.isLive_eq, hleaves.frames.trans hbegins.frames, hbegins.run ▸ hleaves.run⟩
  · rw [hrun m _ (hleaves.captured m _ hbegins.captured)]
    obtain ⟨reports, trees, hkept⟩ := hleaves.run
    rw [hkept, hbegins.run]
    cases m <;> exact ⟨reports, trees, rfl⟩

/-- **A definition that is begun again goes through the same places.** -/
theorem IsMet.again (hmet : d.IsMet library allowance places) (hhead : d.head.IsReading buffer)
    {head' body' : Stage} (hhead' : head'.IsReading buffer) (hgoesOn : head'.run.isCancelled = false)
    (hlines : d.head.lines ≤ head'.lines) (hplace : head'.place = d.head.place)
    (hlength : head'.walk.conditionals.length = d.head.walk.conditionals.length)
    (hbegins' : Performs library allowance .macroHeader head' body') :
    ∃ tail' after', IsMet library allowance places ⟨head', body', tail', after'⟩ ∧ after'.place = d.after.place := by
  obtain ⟨f, m, hbody⟩ := hmet.begins.begins hhead
  obtain ⟨f', m', hbody'⟩ := hbegins'.begins hhead'
  have halike : Alike buffer f f' d.head.walk.conditionals head'.walk.conditionals d.body body' :=
    ⟨⟨[], [], hbody.inDefinition, hbody'.inDefinition, rfl⟩, Performs.place_alike rfl hmet.begins hbegins' hplace,
      by rw [hbody.lines, hbody'.lines]; exact hlines, by rw [hbody'.run]; exact hgoesOn⟩
  have hbase : d.body.walk.conditionals.length = d.head.walk.conditionals.length + 1 := by
    rw [hbody.inDefinition.defining.conditionals]
    rfl
  have hbase' : body'.walk.conditionals.length = head'.walk.conditionals.length + 1 := by
    rw [hbody'.inDefinition.defining.conditionals]
    rfl
  have htrace := hmet.path
  rw [hbase] at htrace
  obtain ⟨tail', htrace', halike⟩ := htrace.alike hlength halike
  obtain ⟨after', hends'⟩ := hmet.ends.closes_alike halike
  refine ⟨tail', after', ⟨hbegins', ?_, hends'⟩, Performs.place_alike rfl hmet.ends hends' halike.place⟩
  rw [hbase']
  exact htrace'

end Definition

/-! ### Lines that are read back -/

theorem endedLine_reverse {line : String} (h : line.toList.getLast? ≠ some '\r') :
    Text.endedLine line.toList.reverse = line := by
  unfold Text.endedLine
  split
  · rename_i cs hcs
    refine absurd ?_ h
    rw [← List.reverse_reverse line.toList, hcs, List.getLast?_reverse]
    rfl
  · rw [List.reverse_reverse, String.ofList_toList]

/-- Whether what expands a macro are the lines of a buffer between two others, under
their own numbers. -/
def ReadsBack (buffer : Buffer) (start stop : Nat) (m : Macro) : Prop :=
  ∀ column env s, (LineM.macroLines m column env s).buffer.lines.toList = buffer.linesBetween start stop ∧
    ∀ i column', (LineM.macroLines m column env s).buffer.position i column' = buffer.position (start + 1 + i) column'

theorem readsBack_of_unlines {file first start stop column : Nat} {text : String} {site : Option Nat} {m : Macro}
    (hplace : m.definedAt = (Buffer.ofText file text first site).position start column)
    (hbody : m.body = Text.unlines ((Buffer.ofText file text first site).linesBetween start stop))
    (hlines : ∀ line ∈ (Buffer.ofText file text first site).linesBetween start stop, line.toList.getLast? ≠ some '\r') :
    ReadsBack (.ofText file text first site) start stop m := by
  intro column' env s
  constructor
  · change (Text.lines m.body).toArray.toList = _
    have hfeed : ∀ line ∈ (Buffer.ofText file text first site).linesBetween start stop, '\n' ∉ line.toList := by
      intro line hline
      have hmem : line ∈ (Text.lines text).toArray.toList := List.mem_of_mem_drop (List.mem_of_mem_take hline)
      exact Text.not_mem_of_mem_lines (by simpa using hmem)
    rw [hbody, Text.lines_unlines hfeed]
    exact (List.map_congr_left fun line hline => endedLine_reverse (hlines line hline)).trans (List.map_id _)
  · intro i column''
    simp only [Buffer.position, LineM.macroLines, Buffer.ofText, hplace, Position.mk.injEq, true_and, and_true]
    omega

/-- **A macro is captured verbatim, and nothing of it is executed while it is.** Let a
walk over the lines of a text come, in the first pass and where statements are
executed, to a definition, with any text between its header and its `ENDMACRO`.

The definition adds one macro, named in the header, whose body are the lines between
the two, each followed by a line feed. A buffer that expands the macro has just these
lines, under their own numbers, if none of them ends in a carriage return. All through
the definition scopes and run stay the same, but for what is shown of the run, and
after it the macro is the only change.

If a later pass comes to the same place, with as many conditionals open and enough
lines left to execute, and the header raises no problem there, then it goes through
the same places to the same `ENDMACRO`, with nothing changed but what is shown of the
run. At no stage of a later pass are the macros others than at its beginning. -/
theorem definition_captured_verbatim {file first bound : Nat} {text : String} {site : Option Nat}
    {frames : List Frame} {r : Run} {places : List (Nat × Option Cursor)} {d : Definition}
    (hreached : Relation.ReflTransGen (Advances library allowance)
      (before bound (.start (.ofText file text first site) frames) r) d.head)
    (hlive : d.head.walk.isLive = true) (hpass : d.head.run.pass = .first)
    (hmet : d.IsMet library allowance places) :
    (∃ m, d.Defines (.ofText file text first site) m ∧
      d.IsSkipped library allowance { d.head.run with macros := d.head.run.macros.add m } ∧
      ((∀ line ∈ (Buffer.ofText file text first site).linesBetween d.head.index d.tail.index,
          line.toList.getLast? ≠ some '\r') →
        ReadsBack (.ofText file text first site) d.head.index d.tail.index m)) ∧
    (∀ bound' frames' r' head' body', Relation.ReflTransGen (Advances library allowance)
        (before bound' (.start (.ofText file text first site) frames') r') head' →
      head'.run.pass ≠ .first → head'.run.isCancelled = false → d.head.lines ≤ head'.lines →
      head'.place = d.head.place → head'.walk.conditionals.length = d.head.walk.conditionals.length →
      Performs library allowance .macroHeader head' body' →
      ∃ tail' after', Definition.IsMet library allowance places ⟨head', body', tail', after'⟩ ∧
        after'.place = d.after.place ∧
        Definition.IsSkipped library allowance head'.run ⟨head', body', tail', after'⟩) ∧
    (∀ bound' frames' r' q, r'.pass ≠ .first → Relation.ReflTransGen (Advances library allowance)
        (before bound' (.start (.ofText file text first site) frames') r') q →
      ∀ name, q.run.macros.get? name = r'.macros.get? name) := by
  have hhead := isReading_path hreached
  refine ⟨?_, ?_, ?_⟩
  · obtain ⟨f, m, hbegins⟩ := hmet.begins.begins hhead
    obtain ⟨m, column, rfl, hname, hplace, hnew⟩ := hbegins.named hlive hpass
    refine ⟨{ m with
      body := Text.unlines ((Buffer.ofText file text first site).linesBetween d.head.index d.tail.index) }, ?_, ?_, ?_⟩
    · exact ⟨⟨column, hname, hplace⟩, hnew, rfl⟩
    · exact Definition.isSkipped_of_begins hmet hbegins
    · exact readsBack_of_unlines hplace rfl
  · intro bound' frames' r' head' body' hreached' hpass' hgoesOn hlines hplace hlength hbegins'
    have hhead' := isReading_path hreached'
    obtain ⟨tail', after', hmet', hafter⟩ := hmet.again hhead hhead' hgoesOn hlines hplace hlength hbegins'
    obtain ⟨f', m', hbody'⟩ := hbegins'.begins hhead'
    obtain rfl := hbody'.unnamed hpass'
    exact ⟨tail', after', hmet', hafter, Definition.isSkipped_of_begins hmet' hbody'⟩
  · intro bound' frames' r' q hpass' hreached' name
    have hsettled : q.walk.IsSettled r'.macros q.run := by
      induction hreached' with
      | refl => exact ⟨⟨hpass', fun _ => rfl⟩, rfl⟩
      | tail _ hstep ih => exact hstep.isSettled ih
    exact hsettled.run.macros name

end Stage

/-! ### A definition with problems in it -/

/-- A definition inside a conditional, with a string, an `IF`, another header and an
`ENDMACRO` that is followed by something. -/
def verbatimSample : String :=
  "IF 1\nMACRO m a\nEQUS \"x:y\"\nIF 0:NOP ?\nELSE:MACRO n\nENDMACRO b\nENDIF\nENDMACRO\nENDIF\n"

/-- The stages of the sample in a pass. -/
def verbatimSampleStage (pass : Pass) : Nat → Stage
  | 0 => .before 12 (.start (.ofText 0 verbatimSample 0 none) []) { Run.start ⟨[], 0, none⟩ 0 .never 0 with pass }
  | k + 1 => ((verbatimSampleStage pass k).advance? (.ofFiles []) fullAllowance).getD (verbatimSampleStage pass k)

theorem verbatimSampleStage_zero (pass : Pass) : verbatimSampleStage pass 0 =
    .before 12 (.start (.ofText 0 verbatimSample 0 none) []) { Run.start ⟨[], 0, none⟩ 0 .never 0 with pass } := rfl

theorem advances_verbatimSampleStage (pass : Pass) {k : Nat} (hk : k < 25) :
    (verbatimSampleStage pass k).Advances (.ofFiles []) fullAllowance (verbatimSampleStage pass (k + 1)) := by
  have hsome : ∀ pass ∈ [Pass.first, .second, .later], ∀ k < 25,
      ((verbatimSampleStage pass k).advance? (.ofFiles []) fullAllowance).isSome = true := by decide +kernel
  obtain ⟨q, hq⟩ := Option.isSome_iff_exists.mp (hsome pass (by cases pass <;> decide) k hk)
  rw [Stage.advances_iff, verbatimSampleStage, hq]
  rfl

attribute [irreducible] verbatimSampleStage

theorem reaches_verbatimSampleStage (pass : Pass) : ∀ k ≤ 25, Relation.ReflTransGen
    (Stage.Advances (.ofFiles []) fullAllowance) (verbatimSampleStage pass 0) (verbatimSampleStage pass k)
  | 0, _ => .refl
  | k + 1, hk => (reaches_verbatimSampleStage pass k (by omega)).tail (advances_verbatimSampleStage pass (by omega))

/-- The header and the `ENDMACRO` of the sample, where they are met. -/
theorem performs_verbatimSampleStage (pass : Pass) {k : Nat} {d : Directive}
    (hk : (k, d) ∈ [(4, Directive.macroHeader), (24, .endMacro)]) :
    (verbatimSampleStage pass k).Performs (.ofFiles []) fullAllowance d (verbatimSampleStage pass (k + 1)) := by
  have hmet : ∀ pass ∈ [Pass.first, .second, .later], ∀ x ∈ [(4, Directive.macroHeader), (24, .endMacro)],
      x.1 < 25 ∧ (verbatimSampleStage pass x.1).directive? = some x.2 ∧
        (verbatimSampleStage pass (x.1 + 1)).place.2.isSome = true := by decide +kernel
  obtain ⟨hlt, hdirective, hinside⟩ := hmet pass (by cases pass <;> decide) _ hk
  have hadvances := advances_verbatimSampleStage pass hlt
  generalize verbatimSampleStage pass (k + 1) = q at hadvances hinside
  cases q with
  | before => cases hinside
  | inside => exact hadvances.performs hdirective

/-- The steps of the sample inside the definition. -/
theorem trace_verbatimSampleStage : ∀ n ≤ 19, Stage.DefinitionTrace (.ofFiles []) fullAllowance 2
    (verbatimSampleStage .first 5) ((List.range' 5 n).map fun k => (verbatimSampleStage .first k).place)
    (verbatimSampleStage .first (5 + n))
  | 0, _ => .refl
  | n + 1, hn => by
    have hopen : ∀ n < 19, 2 ≤ (verbatimSampleStage .first (5 + n + 1)).walk.conditionals.length := by decide +kernel
    rw [List.range'_concat, List.map_append, Nat.one_mul]
    exact (trace_verbatimSampleStage n (by omega)).tail
      ⟨advances_verbatimSampleStage .first (by omega), hopen n (by omega)⟩

/-- The definition of the sample. -/
def verbatimSampleDefinition : Stage.Definition :=
  ⟨verbatimSampleStage .first 4, verbatimSampleStage .first 5, verbatimSampleStage .first 24,
    verbatimSampleStage .first 25⟩

/-- Where the definition of the sample goes through. -/
def verbatimSamplePlaces : List (Nat × Option Cursor) :=
  (List.range' 5 19).map fun k => (verbatimSampleStage .first k).place

theorem isMet_verbatimSample :
    verbatimSampleDefinition.IsMet (.ofFiles []) fullAllowance verbatimSamplePlaces := by
  have hlength : (verbatimSampleStage .first 5).walk.conditionals.length = 2 := by decide +kernel
  refine ⟨performs_verbatimSampleStage .first (by decide), ?_, performs_verbatimSampleStage .first (by decide)⟩
  change Stage.DefinitionTrace _ _ (verbatimSampleStage .first 5).walk.conditionals.length _ _ _
  rw [hlength]
  exact trace_verbatimSampleStage 19 (Nat.le_refl _)

/-- The sample defines a macro of five lines, and is passed over in the second pass. -/
theorem definition_captured_verbatim_sample :
    verbatimSampleDefinition.IsMet (.ofFiles []) fullAllowance verbatimSamplePlaces ∧
    (∃ m, verbatimSampleDefinition.Defines (.ofText 0 verbatimSample 0 none) m ∧
      m.body = "EQUS \"x:y\"\nIF 0:NOP ?\nELSE:MACRO n\nENDMACRO b\nENDIF\n" ∧
      Stage.ReadsBack (.ofText 0 verbatimSample 0 none) 1 7 m) ∧
    ∃ tail' after', Stage.Definition.IsMet (.ofFiles []) fullAllowance verbatimSamplePlaces
        ⟨verbatimSampleStage .second 4, verbatimSampleStage .second 5, tail', after'⟩ ∧
      (verbatimSampleStage .second 4).run.IsKept after'.run := by
  have hfacts : (verbatimSampleStage .first 4).walk.isLive = true ∧ (verbatimSampleStage .first 4).run.pass = .first ∧
      (verbatimSampleStage .first 4).index = 1 ∧ (verbatimSampleStage .first 24).index = 7 ∧
      Text.unlines ((Buffer.ofText 0 verbatimSample 0 none).linesBetween 1 7) =
        "EQUS \"x:y\"\nIF 0:NOP ?\nELSE:MACRO n\nENDMACRO b\nENDIF\n" ∧
      (∀ line ∈ (Buffer.ofText 0 verbatimSample 0 none).linesBetween 1 7, line.toList.getLast? ≠ some '\r') ∧
      (verbatimSampleStage .second 4).run.pass ≠ .first ∧ (verbatimSampleStage .second 4).run.isCancelled = false ∧
      (verbatimSampleStage .first 4).lines ≤ (verbatimSampleStage .second 4).lines ∧
      (verbatimSampleStage .second 4).place = (verbatimSampleStage .first 4).place ∧
      (verbatimSampleStage .second 4).walk.conditionals.length =
        (verbatimSampleStage .first 4).walk.conditionals.length := by decide +kernel
  obtain ⟨hlive, hpass, hindex, hindex', hbody, hlines, hpass', hgoesOn, hbound, hplace, hlength⟩ := hfacts
  have hmet := isMet_verbatimSample
  have hreached := reaches_verbatimSampleStage .first 4 (by decide)
  have hreached' := reaches_verbatimSampleStage .second 4 (by decide)
  rw [verbatimSampleStage_zero] at hreached hreached'
  obtain ⟨⟨m, hm, -, hreads⟩, hagain, -⟩ := Stage.definition_captured_verbatim hreached hlive hpass hmet
  refine ⟨hmet, ⟨m, hm, ?_, ?_⟩, ?_⟩
  · rw [hm.body, ← hbody, ← hindex, ← hindex']
    rfl
  · rw [← hindex, ← hindex'] at hlines ⊢
    exact hreads hlines
  · obtain ⟨tail', after', hmet', -, hskipped⟩ := hagain _ _ _ _ _ hreached' hpass' hgoesOn hbound hplace hlength
      (performs_verbatimSampleStage .second (by decide))
    exact ⟨tail', after', hmet', hskipped.run⟩

/-- A macro whose header is not reached in the second pass: a problem of that pass
leaves the line before it. -/
def unreachedSample : String := "ASSERT 0: MACRO m\nORG 5\nENDMACRO\n"

/-- Where its header is not reached, the lines of a macro are executed. -/
theorem macro_lines_executed_later :
    (runPass (.ofFiles []) 9 0 unreachedSample .first (.start ⟨[], 0, none⟩ 0 .never 0)).map
      (fun r => ((r.macros.get? "m").map Macro.body, r.code.pc)) = some (some "ORG 5\n", 0) ∧
    ((runPass (.ofFiles []) 9 0 unreachedSample .first (.start ⟨[], 0, none⟩ 0 .never 0)).bind
      (runPass (.ofFiles []) 9 0 unreachedSample .second)).map (fun r => r.code.pc) = some 5 := by
  decide +kernel

end Asm6502
