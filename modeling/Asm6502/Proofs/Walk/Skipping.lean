/-
# Lines have the same structure wherever they stand

Conditions say which statements of a line are executed, not where its blocks begin
and end. Each statement of a regular line makes of the outline of the open
conditionals what the text says, whether it is executed or skipped, if it raises no
problem. So a line that gets to its end in two walks with the same outline leaves
the same outline in both, whatever was evaluated in them.

A problem ends its line, with the blocks on the rest of it. It comes from a
statement that is executed or from a condition that is evaluated, which can be that
of an `ELIF` where statements are not executed.

Key definitions: `LineM.FollowsText`, `LineState.IsTracked`,
`LineState.StopsEvaluating`.
Key theorems: `LineM.followsText_perform`, `LineState.IsTracked.followsText`,
`LineState.IsTracked.outline_statements`, `outline_whatever_conditions`.
-/
import Mathlib.Logic.Relation
import Asm6502.Proofs.Statement.Outline
import Asm6502.Proofs.Statement.Span
import Asm6502.Proofs.Statement.Structure

namespace Asm6502

/-- The end of the line is the same from the next character on. -/
theorem Cursor.skipLine_skip {c : Cursor} (h : c.rest ≠ []) : (c.skip 1).skipLine = c.skipLine := by
  have hline : 1 + (c.skip 1).rest.length = c.rest.length := by
    have hpos := List.length_pos_iff.mpr h
    rw [skip, List.length_drop]
    omega
  rw [skipLine, skip_skip, hline, skipLine]

/-! ### Blocks -/

namespace LineM

variable {env : Setting} {s : LineState} {start : Nat} {d : Directive}

theorem wp_expectEnd_of_atStatementEnd {Q : Unit → LineState → Prop} {E : Stop → LineState → Prop}
    (h : s.cursor.atStatementEnd = true) (hQ : Q () { s with cursor := s.cursor.skipBlanks }) :
    wp expectEnd env s Q E := by
  simp only [expectEnd, wp_bind, wp_skipBlanks, wp_getCursor]
  rw [Expr.endProblem?, Cursor.atStatementEnd_skipBlanks, if_pos h]
  exact hQ

/-- Whether a directive makes of the outline what the text says, or the text says
that it cannot stand there, or a statement or a condition has been evaluated. -/
def FollowsText (d : Directive) (start : Nat) (env : Setting) (s : LineState) : Prop :=
  wp (perform d start) env s
    (fun _ t => d.reads s.cursor = true ∧ d.reshape? ⟨env.index, start⟩ s.walk.outline = some t.walk.outline)
    fun _ _ => d.reads s.cursor = false ∨ d.reshape? ⟨env.index, start⟩ s.walk.outline = none ∨
      s.walk.isLive = true ∨ (d = .elifBlock ∧ s.walk.awaitsBranch = true)

theorem outline_condition : wp condition env s (fun _ t => t.walk.outline = s.walk.outline) fun _ _ => True := by
  refine wp_condition (fun t ht => ?_) fun _ _ _ => trivial
  rw [congrArg Walk.outline ht]
  exact Conditional.outline_setCondition _ _

theorem followsText_ifBlock : FollowsText .ifBlock start env s := by
  have hshape := Directive.reshape?_ifBlock ⟨env.index, start⟩ s.walk.conditionals
  change wp (ifBlock start) env s _ _
  simp only [ifBlock, changeConditionals, wp_bind, wp_getWalk, wp_spot, wp_ofFault, wp_setWalk]
  cases hopen : Conditional.openIf s.walk.conditionals ⟨env.index, start⟩ with
  | error fault =>
    rw [hopen] at hshape
    exact ⟨fun _ hset => (by cases hset), fun _ _ => Or.inr (Or.inl hshape)⟩
  | ok frames =>
    rw [hopen] at hshape
    refine ⟨fun conditionals hopened => ?_, fun _ hopened => (by cases hopened)⟩
    cases hopened
    have hset : Directive.reshape? .ifBlock ⟨env.index, start⟩ s.walk.outline =
        some ((Conditional.setCondition false frames).map Conditional.outline) := by
      rw [Conditional.outline_setCondition]
      exact hshape
    rw [wp_ite]
    split_ifs with hlive
    · refine wp_mono outline_condition (fun _ t ht => ⟨rfl, ?_⟩) fun _ _ _ => Or.inr (Or.inr (Or.inl hlive))
      rw [ht]
      exact hset
    · exact ⟨rfl, hset⟩

theorem followsText_elifBlock : FollowsText .elifBlock start env s := by
  have hshape := Directive.reshape?_elifBlock ⟨env.index, start⟩ s.walk.conditionals
  change wp (elifBlock start) env s _ _
  simp only [elifBlock, wp_bind, wp_getWalk, wp_ofFault, wp_setWalk]
  cases hstart : Conditional.startElif s.walk.conditionals with
  | error fault =>
    rw [hstart] at hshape
    exact ⟨fun _ hset => (by cases hset), fun _ _ => Or.inr (Or.inl hshape)⟩
  | ok started =>
    rw [hstart] at hshape
    refine ⟨fun _ hset => ?_, fun _ hset => (by cases hset)⟩
    cases hset
    obtain ⟨wanted, conditionals⟩ := started
    obtain ⟨f, frames, hframes, -, -, rfl, rfl⟩ := Conditional.eq_of_startElif hstart
    rw [wp_ite]
    split_ifs with hwanted
    · have hawaits : s.walk.awaitsBranch = true := by
        rw [Walk.awaitsBranch, Walk.isOuterLive, hframes]
        simpa [Walk.isOuterLive, Conditional.outerTrue, and_comm] using hwanted
      refine wp_mono outline_condition (fun _ t ht => ⟨rfl, ?_⟩)
        fun _ _ _ => Or.inr (Or.inr (Or.inr ⟨trivial, hawaits⟩))
      rw [ht]
      exact hshape
    · exact ⟨rfl, hshape⟩

/-- What is said of a directive that stands alone in its statement. -/
theorem followsText_of_expectEnd {m : LineM Unit} (hperform : perform d start = (do expectEnd; m))
    (hreads : d.reads s.cursor = s.cursor.atStatementEnd)
    (hm : wp m env { s with cursor := s.cursor.skipBlanks }
      (fun _ t => d.reshape? ⟨env.index, start⟩ s.walk.outline = some t.walk.outline)
      fun _ _ => d.reshape? ⟨env.index, start⟩ s.walk.outline = none) : FollowsText d start env s := by
  unfold FollowsText
  rw [hperform, wp_bind, hreads]
  cases hend : s.cursor.atStatementEnd with
  | true =>
    refine wp_expectEnd_of_atStatementEnd hend (wp_mono hm (fun _ _ ht => ⟨rfl, ht⟩) fun _ _ ht => Or.inr (Or.inl ht))
  | false =>
    refine wp_expectEnd (fun hend' => ?_) fun _ => Or.inl rfl
    rw [Cursor.atStatementEnd_skipBlanks, hend] at hend'
    cases hend'

theorem outline_changeConditionals {f : List Conditional → Except Fault (List Conditional)} {o : Option (List Conditional)}
    (ho : o = (f s.walk.conditionals).toOption.map (List.map Conditional.outline)) :
    wp (changeConditionals start f) env s (fun _ t => o = some t.walk.outline) fun _ _ => o = none := by
  simp only [changeConditionals, wp_bind, wp_getWalk, wp_ofFault, wp_setWalk]
  refine ⟨fun frames hf => ?_, fun _ hf => ?_⟩
  · rw [ho, hf]
    rfl
  · rw [ho, hf]
    rfl

theorem followsText_endMacro : FollowsText .endMacro start env s := by
  refine followsText_of_expectEnd rfl rfl ?_
  simp only [wp_bind, wp_getWalk, wp_ofFault, wp_setWalk]
  rw [Directive.reshape?_endMacro]
  refine ⟨fun ended hend => ?_, fun _ hend => ?_⟩
  · have hend : s.walk.endMacro = .ok ended := hend
    rw [hend]
    split <;> rfl
  · have hend : s.walk.endMacro = .error _ := hend
    rw [hend]
    rfl

theorem wp_expectName {Q : String → LineState → Prop} {E : Stop → LineState → Prop} :
    wp expectName env s Q E ↔
      if s.cursor.skipBlanks.atName then
        Q s.cursor.skipBlanks.name.1 { s with cursor := s.cursor.skipBlanks.name.2 }
      else E (.problem ⟨.invalidSymbolName, s.cursor.skipBlanks.column⟩) { s with cursor := s.cursor.skipBlanks } := by
  simp only [expectName, wp_bind, wp_skipBlanks, wp_getCursor, wp_ite, wp_fail, wp_setCursor]
  cases s.cursor.skipBlanks.atName <;> rfl

theorem wp_expectComma {Q : Unit → LineState → Prop} {E : Stop → LineState → Prop} :
    wp expectComma env s Q E ↔
      if s.cursor.skipBlanks.peek == some ',' then Q () { s with cursor := s.cursor.skipBlanks.skip 1 }
      else E (.problem ⟨.missingComma, s.cursor.skipBlanks.column⟩) { s with cursor := s.cursor.skipBlanks } := by
  simp only [expectComma, wp_bind, wp_skipBlanks, wp_peek, wp_ite, wp_advance, wp_column, wp_fail]

/-- The parameters of a macro are read as the text says. -/
theorem reads_macroParameters (before : List String) (steps : Nat) :
    wp (macroParameters before steps) env s
      (fun _ _ => s.cursor.readsParameters before.isEmpty steps = true)
      fun _ _ => s.cursor.readsParameters before.isEmpty steps = false := by
  induction steps generalizing before s with
  | zero => exact rfl
  | succ steps ih =>
    have hname (u : LineState) : wp (do
        skipBlanks
        let start ← column
        let name ← expectName
        pushPart (.leaf .symbol name start)
        macroParameters (before ++ [name]) steps) env u
        (fun _ _ => (u.cursor.skipBlanks.atName &&
          u.cursor.skipBlanks.name.2.readsParameters false steps) = true)
        fun _ _ => (u.cursor.skipBlanks.atName &&
          u.cursor.skipBlanks.name.2.readsParameters false steps) = false := by
      simp only [wp_bind, wp_skipBlanks, wp_column, wp_expectName, wp_pushPart, Cursor.skipBlanks_skipBlanks]
      split_ifs with hname
      · rw [hname, Bool.true_and]
        have hread := ih (before ++ [u.cursor.skipBlanks.name.1])
          (s := { u with
            cursor := u.cursor.skipBlanks.name.2
            parts := u.parts.push (.leaf .symbol u.cursor.skipBlanks.name.1 u.cursor.skipBlanks.column) })
        rwa [show (before ++ [u.cursor.skipBlanks.name.1]).isEmpty = false by simp] at hread
      · simp [hname]
    unfold macroParameters Cursor.readsParameters
    simp only [wp_bind, wp_atEnd, wp_ite, wp_pure, wp_peek, wp_expectComma, Cursor.skipBlanks_skipBlanks]
    cases hend : s.cursor.skipBlanks.atStatementEnd with
    | true => exact rfl
    | false =>
      rw [if_neg Bool.false_ne_true]
      cases hcomma : s.cursor.skipBlanks.peek == some ',' with
      | true =>
        have hread := hname { s with cursor := s.cursor.skipBlanks.skip 1 }
        simpa using hread
      | false =>
        cases hfirst : before.isEmpty with
        | true =>
          have hread := hname { s with cursor := s.cursor.skipBlanks }
          simpa [Cursor.skipBlanks_skipBlanks] using hread
        | false => simp

theorem followsText_macroHeader (hs : s.walk.CapturesInMacro) : FollowsText .macroHeader start env s := by
  change wp (macroHeader start) env s _ _
  simp only [macroHeader, wp_bind, wp_skipBlanks, wp_column, wp_expectName, wp_pushPart, wp_getCursor,
    Cursor.skipBlanks_skipBlanks]
  have hreads : Directive.reads .macroHeader s.cursor = (s.cursor.skipBlanks.atName &&
      s.cursor.skipBlanks.name.2.readsParameters true (s.cursor.skipBlanks.name.2.rest.length + 1)) := rfl
  split_ifs with hname
  · rw [hname, Bool.true_and] at hreads
    refine wp_mono (wp_and (reads_macroParameters _ _) (isIdle_macroParameters _ _ env _)) (fun parameters t ht => ?_)
      fun _ _ ht => Or.inl (hreads.trans ht.1)
    have hread : Directive.reads .macroHeader s.cursor = true := hreads.trans ht.1
    have hwalk : t.walk = s.walk := ht.2.1
    simp only [wp_getWalk, wp_getRun, wp_position, wp_spot, wp_ofFault, wp_setWalk]
    rw [hwalk]
    refine ⟨fun w hstart => ?_, fun _ hstart => Or.inr (Or.inl ?_)⟩
    · have hshape : Directive.reshape? .macroHeader ⟨env.index, start⟩ s.walk.outline = some w.outline :=
        (Directive.reshape?_macroHeader _ hs _).trans (by rw [hstart]; rfl)
      rw [wp_ite]
      split_ifs with hduplicate
      · have hlive : s.walk.isLive = true := by
          simp only [Bool.and_eq_true] at hduplicate
          exact hduplicate.1.1
        exact Or.inr (Or.inr (Or.inl hlive))
      · exact ⟨hread, hshape⟩
    · exact (Directive.reshape?_macroHeader _ hs _).trans (by rw [hstart]; rfl)
  · exact Or.inl (by rw [hreads]; simp [hname])

theorem followsText_perform (hd : d.isBlock = true) (hs : s.walk.CapturesInMacro) : FollowsText d start env s := by
  cases d with
  | ifBlock => exact followsText_ifBlock
  | elifBlock => exact followsText_elifBlock
  | elseBlock =>
    exact followsText_of_expectEnd rfl rfl (outline_changeConditionals (Directive.reshape?_elseBlock _ _))
  | endif => exact followsText_of_expectEnd rfl rfl (outline_changeConditionals (Directive.reshape?_endif _ _))
  | macroHeader => exact followsText_macroHeader hs
  | endMacro => exact followsText_endMacro
  | _ => cases hd

/-! ### Statements -/

theorem directive?_of_met (h : s.cursor.directive? = some d) (hmet : s.walk.isLive = true ∨ d.isStructural = true) :
    directive? s = some d := by
  obtain ⟨hassignment, spelling, hfind⟩ := Cursor.find?_of_directive? h
  rw [directive?, hassignment, if_neg Bool.false_ne_true, hfind]
  dsimp only
  rw [if_pos (by simpa using hmet)]

theorem directive?_cursor (h : directive? s = some d) : s.cursor.directive? = some d := by
  obtain ⟨spelling, hfind⟩ := find?_of_directive? h
  unfold directive? at h
  split_ifs at h with hassignment
  rw [Cursor.directive?, if_neg hassignment, hfind]
  rfl

/-- Where statements are not executed, one that does not structure the text is
skipped. -/
theorem skips_statement (hdead : s.walk.isLive = false)
    (h : ∀ d, s.cursor.directive? = some d → d.isStructural = false) :
    wp statement env s (fun _ t => t.cursor = s.cursor.skipStatement ∧ t.walk = s.walk) fun _ _ => False := by
  have hnone : directive? s = none := by
    cases hd : directive? s with
    | none => rfl
    | some d =>
      have hstructural : d.isStructural = false := h d (directive?_cursor hd)
      have hmet := directive?_met hd
      rw [hdead, hstructural] at hmet
      simp at hmet
  refine wp_statement_of_none hnone ⟨rfl, rfl⟩ (fun hlive _ => ?_) fun hlive _ => ?_
  · rw [hdead] at hlive
    cases hlive
  · rw [hdead] at hlive
    cases hlive

/-- A statement that succeeds, other than a sign or a label, ends where it ends if
it is skipped. -/
theorem ends_statement (h : ∀ d, s.cursor.directive? = some d → d.isWhole = true) :
    wp statement env s (fun _ t => t.cursor = s.cursor.skipStatement) fun _ _ => True := by
  cases hd : directive? s with
  | some d =>
    obtain ⟨spelling, hfind⟩ := find?_of_directive? hd
    have hwhole : d.isWhole = true := h d (directive?_cursor hd)
    have hspans : s.cursor.Spans (s.cursor.skip spelling.length) := by
      refine Cursor.spans_spelling hfind ?_ ?_ <;> rintro rfl <;> cases hwhole
    apply wp_statement_directive hd hfind
    rw [hspans.skipStatement_congr]
    exact wp_imp ((endsAsSkipped_perform _ hwhole).ends env _) fun _ _ ht _ => ht
  | none =>
    have hoperation : EndsAsSkipped operation := inferInstance
    exact wp_statement_of_none hd rfl (fun _ h => ends_assignment h) fun _ _ => hoperation.ends env _

theorem place_openEnded (h : directive? s = some d) (hd : d.isOpenEnded = true) :
    wp statement env s (fun _ t => t.cursor = s.cursor.pastMark) fun _ _ => True := by
  obtain ⟨spelling, hfind⟩ := find?_of_directive? h
  obtain ⟨x, hlength, hpeek, hlabel, -⟩ := Cursor.exists_sign_of_find? hfind (Or.inl hd)
  have hlabel : s.cursor.peek = some '.' ↔ d = .label := by rw [hpeek, Option.some.injEq, hlabel]
  apply wp_statement_directive h hfind
  rw [hlength, Cursor.pastMark]
  cases d with
  | label =>
    rw [if_pos (hlabel.mpr rfl)]
    exact wp_imp place_label fun _ _ ht _ => ht.1
  | openBrace =>
    have hbrace : KeepsPlace (openBrace s.cursor.column) := inferInstance
    rw [if_neg fun hx => by cases hlabel.mp hx]
    exact wp_mono (hbrace.cursor_eq env _) (fun _ _ ht _ => ht) fun _ _ _ => trivial
  | closeBrace =>
    have hbrace : KeepsPlace (closeBrace s.cursor.column) := inferInstance
    rw [if_neg fun hx => by cases hlabel.mp hx]
    exact wp_mono (hbrace.cursor_eq env _) (fun _ _ ht _ => ht) fun _ _ _ => trivial
  | _ => cases hd

/-- A statement ends its line only if a loop has moved the walk back. -/
theorem goesOn_statement :
    wp statement env s (fun goesOn t => t.walk.rewound = false → goesOn = true) fun _ _ => True := by
  have hdone {m : LineM Unit} {u : LineState} :
      wp m env u (fun _ t => t.walk.rewound = false → true = true) fun _ _ => True := by
    unfold wp
    split
    · exact fun _ => rfl
    · trivial
  cases hd : directive? s with
  | none => exact wp_statement_of_none hd (fun _ => rfl) (fun _ _ => hdone) fun _ _ => hdone
  | some d =>
    obtain ⟨spelling, hfind⟩ := find?_of_directive? hd
    apply wp_statement_directive hd hfind
    refine wp_mono hdone (fun _ t _ nodes hrewound => ?_) fun _ _ _ => trivial
    rw [hrewound, Bool.not_false]

end LineM

/-! ### What a statement makes of an outline -/

/-- Whether the statement at a place is executed, or is an `ELIF` with a condition
that is evaluated. -/
def LineState.Evaluates (s : LineState) : Prop :=
  s.walk.isLive = true ∨ (s.cursor.skipBlanks.directive? = some .elifBlock ∧ s.walk.awaitsBranch = true)

/-- What is kept between the statements of a regular line. -/
structure LineState.IsTracked (s : LineState) : Prop where
  rewound : s.walk.rewound = false
  capture : s.walk.CapturesInMacro
  regular : s.cursor.IsRegular

theorem Walk.Turn.rewound_eq {w w' : Walk} {r r' : Run} {d : Directive} (h : w.Turn r d w' r') :
    w'.rewound = w.rewound := by
  cases h <;> rfl

/-- Directives that structure the text capture lines only inside the definition of a
macro. -/
theorem Walk.Turn.capturesInMacro {w w' : Walk} {r r' : Run} {d : Directive} {spot : Spot} (h : w.Turn r d w' r')
    (hshape : d.reshape? spot w.outline = some w'.outline) (hw : w.CapturesInMacro) : w'.CapturesInMacro := by
  have hkept (hd : d ≠ .endMacro) (hcapture : w'.capture = w.capture) : w'.CapturesInMacro := fun hsome => by
    rw [← Conditional.any_isMacro_outline]
    refine Directive.any_isMacro_of_reshape? hd hshape ?_
    rw [Walk.outline, Conditional.any_isMacro_outline]
    exact hw (hcapture ▸ hsome)
  cases h with
  | keeps => exact hw
  | opens => exact hkept (by decide) rfl
  | changes hd => exact hkept (by rcases hd with rfl | rfl <;> decide) rfl
  | closes => exact hkept (by decide) rfl
  | defines hf => exact fun _ => by rw [List.any_cons, hf, Bool.true_or]
  | ends => exact fun hsome => by cases hsome

namespace LineState

variable {env : Setting} {s t : LineState} {d : Directive}

/-- What is said of a state that a statement leaves: the line goes on from there,
and it comes to the same outline. -/
def GoesOn (env : Setting) (s : LineState) (goesOn : Bool) (t : LineState) : Prop :=
  goesOn = true ∧ t.IsTracked ∧
    s.cursor.outlineAfter? env.index s.walk.outline = t.cursor.outlineAfter? env.index t.walk.outline

/-- The text says what a statement makes of an outline, if it raises no problem. -/
def FollowsText (env : Setting) (s : LineState) : Prop :=
  LineM.wp LineM.statement env s (GoesOn env s)
    fun _ _ => s.Evaluates ∨ s.cursor.outlineAfter? env.index s.walk.outline = none

/-- A statement that leaves the conditionals alone. -/
theorem IsTracked.goesOn_of_same (hs : s.IsTracked) {goesOn : Bool} (hgoesOn : t.walk.rewound = false → goesOn = true)
    (hwalk : t.walk.rewound = s.walk.rewound ∧ t.walk.capture = s.walk.capture ∧
      t.walk.conditionals = s.walk.conditionals)
    (hstarts : s.cursor.Starts t.cursor.skipBlanks)
    (hplace : s.cursor.outlineAfter? env.index s.walk.outline = t.cursor.outlineAfter? env.index s.walk.outline) :
    GoesOn env s goesOn t := by
  obtain ⟨hrewound, hcapture, hconditionals⟩ := hwalk
  have hrewound : t.walk.rewound = false := hrewound.trans hs.rewound
  refine ⟨hgoesOn hrewound, ⟨hrewound, ?_, hs.regular.of_starts hstarts⟩, ?_⟩
  · rw [Walk.CapturesInMacro, hcapture, hconditionals]
    exact hs.capture
  · have houtline : t.walk.outline = s.walk.outline := by rw [Walk.outline, Walk.outline, hconditionals]
    rw [houtline]
    exact hplace

section
variable (hs : s.IsTracked) (hblanks : s.cursor.skipBlanks = s.cursor) (hrest : s.cursor.rest ≠ [])
include hs hblanks hrest

/-- A statement that is skipped, or ends where it would end then. -/
theorem IsTracked.goesOn_of_skipStatement
    (h : ∀ d, s.cursor.directive? = some d → d.isBlock = false ∧ d ≠ .separator ∧ d ≠ .comment) {goesOn : Bool}
    (hgoesOn : t.walk.rewound = false → goesOn = true)
    (hwalk : t.walk.rewound = s.walk.rewound ∧ t.walk.capture = s.walk.capture ∧
      t.walk.conditionals = s.walk.conditionals)
    (hplace : t.cursor = s.cursor.skipStatement) : GoesOn env s goesOn t := by
  have hstarts := (Cursor.starts_self hblanks).next hrest
  rw [Cursor.nextStatement_eq_skipStatement fun d hd => (h d hd).2, ← hplace] at hstarts
  refine hs.goesOn_of_same hgoesOn hwalk hstarts ?_
  rw [Cursor.outlineAfter?_skipStatement (by rwa [hblanks]) (by rwa [hblanks]), ← hplace]

/-- A statement that is skipped. -/
theorem IsTracked.followsText_of_dead (hdead : s.walk.isLive = false)
    (h : ∀ d, s.cursor.directive? = some d → d.isStructural = false) : FollowsText env s := by
  refine LineM.wp_mono (LineM.wp_and LineM.goesOn_statement (LineM.skips_statement hdead h)) (fun goesOn t ht => ?_)
    fun _ _ ht => ht.2.elim
  obtain ⟨hgoesOn, hplace, hwalk⟩ := ht
  refine hs.goesOn_of_skipStatement hblanks hrest (fun d hd => ?_) hgoesOn ?_ hplace
  · have hstructural := h d hd
    revert hstructural
    cases d <;> decide
  · rw [hwalk]
    exact ⟨rfl, rfl, rfl⟩

/-- A label or a brace that is executed. -/
theorem IsTracked.followsText_of_openEnded (hlive : s.walk.isLive = true)
    (h : s.cursor.directive? = some d) (hd : d.isOpenEnded = true) : FollowsText env s := by
  have hmet : LineM.directive? s = some d := LineM.directive?_of_met h (Or.inl hlive)
  have hflat : ∀ d', LineM.directive? s = some d' → d'.isStructural = false ∧ d' ≠ .next ∧ d' ≠ .asm := fun d' hd' => by
    obtain rfl := Option.some.inj (hmet.symm.trans hd')
    revert hd
    cases d <;> decide
  refine LineM.wp_mono (LineM.wp_and LineM.goesOn_statement (LineM.wp_and (LineM.place_openEnded hmet hd)
    (LineM.flat_statement hflat))) (fun goesOn t ht => ?_) fun _ _ _ => Or.inl (Or.inl hlive)
  obtain ⟨hgoesOn, hplace, hwalk⟩ := ht
  have hfirst := Cursor.starts_self hblanks
  refine hs.goesOn_of_same hgoesOn hwalk ?_ ?_
  · rw [hplace]
    exact .behind hfirst h hd
  · rw [hplace]
    exact Cursor.outlineAfter?_pastMark h hd (fun _ hd' => hs.regular.separated hfirst h hd hd') hblanks hrest

/-- A statement that is executed and goes on to its end, no block. -/
theorem IsTracked.followsText_of_isWhole (hlive : s.walk.isLive = true)
    (h : ∀ d, s.cursor.directive? = some d → d.isWhole = true ∧ d.isBlock = false) : FollowsText env s := by
  have hfacts : ∀ d : Directive, d.isWhole = true → d.isBlock = false →
      (d.isStructural = false ∧ d ≠ .next ∧ d ≠ .asm) ∧ d ≠ .separator ∧ d ≠ .comment := by
    intro d
    cases d <;> decide
  have hflat : ∀ d, LineM.directive? s = some d → d.isStructural = false ∧ d ≠ .next ∧ d ≠ .asm := fun d hd =>
    have hd := h d (LineM.directive?_cursor hd)
    (hfacts d hd.1 hd.2).1
  refine LineM.wp_mono (LineM.wp_and LineM.goesOn_statement (LineM.wp_and
    (LineM.ends_statement fun d hd => (h d hd).1) (LineM.flat_statement hflat))) (fun goesOn t ht => ?_)
    fun _ _ _ => Or.inl (Or.inl hlive)
  obtain ⟨hgoesOn, hplace, hwalk⟩ := ht
  exact hs.goesOn_of_skipStatement hblanks hrest (fun d hd => ⟨(h d hd).2, (hfacts d (h d hd).1 (h d hd).2).2⟩)
    hgoesOn hwalk hplace

/-- A separator or a comment. -/
theorem IsTracked.followsText_of_sign (h : s.cursor.directive? = some d) (hd : d = .separator ∨ d = .comment) :
    FollowsText env s := by
  obtain ⟨-, spelling, hfind⟩ := Cursor.find?_of_directive? h
  obtain ⟨-, hlength, -⟩ := Cursor.exists_sign_of_find? hfind (Or.inr hd)
  have hstructural : d.isStructural = true ∧ d.isBlock = false := by rcases hd with rfl | rfl <;> decide
  have hmet : LineM.directive? s = some d := LineM.directive?_of_met h (Or.inr hstructural.1)
  have hgoesOn {place : Cursor} (hplace : place = s.cursor.nextStatement) (nodes : Array Node) :
      GoesOn env s (!s.walk.rewound) { s with cursor := place, nodes, parts := #[] } := by
    refine hs.goesOn_of_same (fun _ => by rw [hs.rewound]; rfl) ⟨rfl, rfl, rfl⟩ ?_ ?_
    · rw [hplace]
      exact (Cursor.starts_self hblanks).next hrest
    · rw [hplace, Cursor.outlineAfter?_nextStatement (by rwa [hblanks]), hblanks]
      rw [hblanks, h]
      intro e he
      obtain rfl := Option.some.inj he
      exact hstructural.2
  apply LineM.wp_statement_directive hmet hfind
  rw [hlength]
  rcases hd with rfl | rfl
  · refine hgoesOn ?_
    rw [Cursor.nextStatement, h]
  · refine hgoesOn ?_
    rw [Cursor.nextStatement, h]
    exact Cursor.skipLine_skip hrest

/-- A directive that opens, continues or closes a block. -/
theorem IsTracked.followsText_of_isBlock (h : s.cursor.directive? = some d) (hd : d.isBlock = true) :
    FollowsText env s := by
  obtain ⟨hassignment, spelling, hfind⟩ := Cursor.find?_of_directive? h
  have hfacts : d.isStructural = true ∧ d.isWhole = true ∧ d ≠ .separator ∧ d ≠ .comment := by
    revert hd
    cases d <;> decide
  obtain ⟨hstructural, hwhole, hsigns⟩ := hfacts
  have hspans : s.cursor.Spans (s.cursor.skip spelling.length) := Cursor.spans_spelling hfind hsigns.1 hsigns.2
  have hnext : s.cursor.nextStatement = (s.cursor.skip spelling.length).skipStatement := by
    rw [← hspans.skipStatement_congr]
    refine Cursor.nextStatement_eq_skipStatement fun e he => ?_
    obtain rfl := Option.some.inj (h.symm.trans he)
    exact hsigns
  have houtline : s.cursor.outlineAfter? env.index s.walk.outline =
      (if d.reads (s.cursor.skip spelling.length) then d.reshape? ⟨env.index, s.cursor.column⟩ s.walk.outline
        else none).bind fun frames => s.cursor.nextStatement.outlineAfter? env.index frames := by
    rw [Cursor.outlineAfter?, hblanks, dif_neg hrest, Cursor.outlineOf?_of_isBlock hassignment hfind hd]
  apply LineM.wp_statement_directive (LineM.directive?_of_met h (Or.inr hstructural)) hfind
  refine LineM.wp_mono (LineM.wp_and (LineM.followsText_perform hd hs.capture) (LineM.wp_and
    (LineM.turn_perform hstructural) ((LineM.endsAsSkipped_perform _ hwhole).ends env _)))
    (fun _ t ht nodes => ?_) fun _ _ ht => ?_
  · obtain ⟨⟨hreads, hshape⟩, hturn, hplace⟩ := ht
    have hrewound : t.walk.rewound = false := hturn.rewound_eq.trans hs.rewound
    have hstarts := (Cursor.starts_self hblanks).next hrest
    rw [hnext, ← hplace] at hstarts
    refine ⟨by rw [hrewound]; rfl, ⟨hrewound, hturn.capturesInMacro hshape hs.capture, ?_⟩, ?_⟩
    · exact hs.regular.of_starts hstarts
    · have hshape : d.reshape? ⟨env.index, s.cursor.column⟩ s.walk.outline = some t.walk.outline := hshape
      rw [houtline, if_pos hreads, hshape, hnext, ← hplace]
      rfl
  · rw [houtline]
    rcases ht.1 with hreads | hshape | hlive | ⟨rfl, hawaits⟩
    · have hreads : d.reads (s.cursor.skip spelling.length) = false := hreads
      rw [hreads]
      exact Or.inr rfl
    · have hshape : d.reshape? ⟨env.index, s.cursor.column⟩ s.walk.outline = none := hshape
      rw [hshape, ite_self]
      exact Or.inr rfl
    · exact Or.inl (Or.inl hlive)
    · exact Or.inl (Or.inr ⟨by rwa [hblanks], hawaits⟩)

theorem IsTracked.followsText : FollowsText env s := by
  have hflat := hs.regular.flat (Cursor.starts_self hblanks)
  cases hd : s.cursor.directive? with
  | none =>
    cases hlive : s.walk.isLive with
    | true => exact hs.followsText_of_isWhole hblanks hrest hlive (by simp [hd])
    | false => exact hs.followsText_of_dead hblanks hrest hlive (by simp [hd])
  | some d =>
    rw [hd, Ne, Option.some.injEq, Ne, Option.some.injEq] at hflat
    by_cases hblock : d.isBlock = true
    · exact hs.followsText_of_isBlock hblanks hrest hd hblock
    by_cases hsign : d = .separator ∨ d = .comment
    · exact hs.followsText_of_sign hblanks hrest hd hsign
    have hfacts : d.isStructural = false ∧ (d.isOpenEnded = true ∨ d.isWhole = true) := by
      revert hblock hsign hflat
      cases d <;> decide
    cases hlive : s.walk.isLive with
    | false =>
      refine hs.followsText_of_dead hblanks hrest hlive fun e he => ?_
      obtain rfl := Option.some.inj (hd.symm.trans he)
      exact hfacts.1
    | true =>
      rcases hfacts.2 with hopen | hwhole
      · exact hs.followsText_of_openEnded hblanks hrest hlive hd hopen
      · refine hs.followsText_of_isWhole hblanks hrest hlive fun e he => ?_
        obtain rfl := Option.some.inj (hd.symm.trans he)
        exact ⟨hwhole, by simpa using hblock⟩

end

/-! ### Lines -/

/-- Whether the next statement is executed or skipped without a problem. -/
def GetsPast (env : Setting) (s t : LineState) : Prop :=
  s.cursor.skipBlanks.rest ≠ [] ∧ LineM.statement env { s with cursor := s.cursor.skipBlanks } = .ok true t

/-- Whether the line stops at a problem of a statement that is executed, or of the
condition of an `ELIF` that is evaluated. -/
def StopsEvaluating (env : Setting) (s : LineState) (stop : Stop) (u : LineState) : Prop :=
  ∃ t, Relation.ReflTransGen (GetsPast env) s t ∧ t.Evaluates ∧ t.cursor.skipBlanks.rest ≠ [] ∧
    LineM.statement env { t with cursor := t.cursor.skipBlanks } = .error stop u

/-- The text of a regular line says what becomes of the outline, whatever the
conditions are. -/
theorem IsTracked.outline_statements (henv : env.IsTame) (hs : s.IsTracked) :
    LineM.wp LineM.statements env s
      (fun _ t => s.cursor.outlineAfter? env.index s.walk.outline = some t.walk.outline)
      fun stop t => s.StopsEvaluating env stop t ∨ s.cursor.outlineAfter? env.index s.walk.outline = none := by
  -- a statement leaves less of the line
  induction hlength : s.cursor.rest.length using Nat.strong_induction_on generalizing s with
  | _ n ih =>
    unfold LineM.wp
    rw [LineM.statements_eq henv]
    by_cases hrest : s.cursor.skipBlanks.rest = []
    · rw [if_pos hrest, Cursor.outlineAfter?, dif_pos hrest]
    rw [if_neg hrest]
    have hbegin : IsTracked { s with cursor := s.cursor.skipBlanks } := by
      refine ⟨hs.rewound, hs.capture, hs.regular.of_starts ?_⟩
      rw [Cursor.skipBlanks_skipBlanks]
      exact .first
    have hstep : FollowsText env { s with cursor := s.cursor.skipBlanks } :=
      hbegin.followsText s.cursor.skipBlanks_skipBlanks hrest
    unfold FollowsText LineM.wp at hstep
    rw [Cursor.outlineAfter?_skipBlanks] at hstep
    cases hrun : LineM.statement env { s with cursor := s.cursor.skipBlanks } with
    | error stop t =>
      rw [hrun] at hstep
      rcases hstep with heval | hnone
      · unfold Evaluates at heval
        rw [Cursor.skipBlanks_skipBlanks] at heval
        exact Or.inl ⟨s, .refl, heval, hrest, hrun⟩
      · exact Or.inr hnone
    | ok goesOn t =>
      rw [hrun] at hstep
      obtain ⟨rfl, ht, houtline⟩ := hstep
      rw [Cursor.outlineAfter?_skipBlanks] at houtline
      have hless := LineM.rest_lt_of_statement henv hrest hrun
      have hline := ih t.cursor.rest.length (hlength ▸ hless) ht rfl
      rw [houtline]
      refine LineM.wp_mono hline (fun _ _ hu => hu) fun stop u hu => hu.imp_left fun hstops => ?_
      obtain ⟨v, hpasses, hv⟩ := hstops
      exact ⟨v, .head ⟨hrest, hrun⟩ hpasses, hv⟩

/-- Where the same conditionals are open, a regular line comes to the same outline
unless it is stopped. -/
theorem IsTracked.outline_eq {env' : Setting} {s' : LineState} (henv : env.IsTame) (henv' : env'.IsTame)
    (hindex : env'.index = env.index) (hs : s.IsTracked) (ht : t.IsTracked) (hplace : t.cursor = s.cursor)
    (houtline : t.walk.outline = s.walk.outline) (hrun : LineM.statements env s = .ok () s') :
    LineM.wp LineM.statements env' t (fun _ t' => t'.walk.outline = s'.walk.outline) (t.StopsEvaluating env') := by
  have hline : s.cursor.outlineAfter? env.index s.walk.outline = some s'.walk.outline :=
    LineM.of_wp_ok (hs.outline_statements henv) hrun
  have hline' := ht.outline_statements henv'
  rw [hplace, houtline, hindex, hline] at hline'
  exact LineM.wp_mono hline' (fun _ _ h => (Option.some.inj h).symm) fun _ _ h => h.resolve_right (Option.some_ne_none _)

end LineState

theorem Setting.index_ofLine {library : Library} {allowance : Allowance} {bound index : Nat} :
    (Setting.ofLine library allowance bound index).index = index := by
  unfold ofLine
  cases allowance.evals <;> rfl

/-- A regular line that is executed without a problem changes the open conditionals
in the same way wherever the same conditionals are open, whatever was evaluated for
them, unless a problem stops it there: one of a statement that is executed there, or
of a condition that is evaluated there. -/
theorem outline_whatever_conditions {library : Library} {allowance allowance' : Allowance} {bound bound' : Nat}
    {w w' : Walk} {r r' : Run} {line : String} {t : LineState} (hw : w.CapturesInMacro) (hw' : w'.CapturesInMacro)
    (hnext : w'.next = w.next) (hcolumn : w'.resumeColumn = w.resumeColumn) (houtline : w'.outline = w.outline)
    (hregular : (Cursor.ofColumn line w.resumeColumn).IsRegular)
    (hrun : LineM.statements (.ofLine library allowance bound w.next) (w.entering r line) = .ok () t) :
    (∀ t', LineM.statements (.ofLine library allowance' bound' w'.next) (w'.entering r' line) = .ok () t' →
      t'.walk.outline = t.walk.outline ∧
        (t'.walk.conditionals.length : Int) - w'.conditionals.length =
          t.walk.conditionals.length - w.conditionals.length) ∧
      ∀ stop u, LineM.statements (.ofLine library allowance' bound' w'.next) (w'.entering r' line) = .error stop u →
        (w'.entering r' line).StopsEvaluating (.ofLine library allowance' bound' w'.next) stop u := by
  have hplace : (w'.entering r' line).cursor = (w.entering r line).cursor := congrArg (Cursor.ofColumn line) hcolumn
  have hs : (w.entering r line).IsTracked := ⟨rfl, hw, hregular⟩
  have ht : (w'.entering r' line).IsTracked := ⟨rfl, hw', by rw [hplace]; exact hregular⟩
  have hindex : (Setting.ofLine library allowance' bound' w'.next).index =
      (Setting.ofLine library allowance bound w.next).index := by
    rw [Setting.index_ofLine, Setting.index_ofLine, hnext]
  have htame : (Setting.ofLine library allowance' bound' w'.next).IsTame := Setting.isTame_ofLine
  have hline := hs.outline_eq Setting.isTame_ofLine htame hindex ht hplace houtline hrun
  refine ⟨fun t' hrun' => ?_, fun stop u hrun' => LineM.of_wp_error hline hrun'⟩
  have ht' : t'.walk.outline = t.walk.outline := LineM.of_wp_ok hline hrun'
  have hlength (v : Walk) : v.outline.length = v.conditionals.length := List.length_map _
  refine ⟨ht', ?_⟩
  rw [← hlength, ← hlength, ← hlength, ← hlength, ht', houtline]

/-- A walk in a branch of an `IF`, which is executed or not. -/
def branchOf (executed : Bool) : Walk :=
  { Walk.start (.ofText 0 "" 0 none) [] with
    conditionals := [⟨executed, executed, false, false, ⟨0, 0⟩⟩], next := 1 }

/-- Labels, a brace and an `ELSE` on one line. -/
def mixedSample : String := ".l NOP: ELSE: \x7b .m NOP: ENDIF"

/-- Whether a line succeeds, and how many conditionals are open then. -/
def LineState.depthAfter (env : Setting) (s : LineState) : Bool × Nat :=
  match LineM.statements env s with
  | .ok _ t => (true, t.walk.conditionals.length)
  | .error _ t => (false, t.walk.conditionals.length)

theorem LineState.eq_of_depthAfter {env : Setting} {s : LineState} {n : Nat} :
    (s.depthAfter env = (true, n) → ∃ t, LineM.statements env s = .ok () t ∧ t.walk.conditionals.length = n) ∧
      (s.depthAfter env = (false, n) →
        ∃ stop t, LineM.statements env s = .error stop t ∧ t.walk.conditionals.length = n) := by
  unfold depthAfter
  cases LineM.statements env s with
  | ok _ t => exact ⟨fun h => ⟨t, rfl, (Prod.mk.inj h).2⟩, fun h => absurd (Prod.mk.inj h).1 (by decide)⟩
  | error stop t =>
    exact ⟨fun h => absurd (Prod.mk.inj h).1 (by decide), fun h => ⟨stop, t, rfl, (Prod.mk.inj h).2⟩⟩

theorem outline_whatever_conditions_else : ∃ t t',
    (Cursor.ofColumn mixedSample 0).IsRegular ∧ (branchOf true).isLive = true ∧ (branchOf false).isLive = false ∧
      LineM.statements (.ofLine (.ofFiles []) fullAllowance 1 (branchOf true).next)
        ((branchOf true).entering (.start ⟨[], 0, none⟩ 0 .never 0) mixedSample) = .ok () t ∧
      LineM.statements (.ofLine (.ofFiles []) fullAllowance 1 (branchOf false).next)
        ((branchOf false).entering (.start ⟨[], 0, none⟩ 0 .never 0) mixedSample) = .ok () t' ∧
      t.walk.conditionals.length = 0 ∧ t'.walk.outline = t.walk.outline := by
  have hregular : (Cursor.ofColumn mixedSample (branchOf true).resumeColumn).IsRegular := by
    refine Cursor.isRegular_of_closed
      ([0, 3, 6, 8, 12, 14, 16, 19, 22, 24, 29].map (Cursor.ofColumn mixedSample)) ?_ ?_ ?_ ?_
    all_goals decide +kernel
  have hruns : ∀ executed, ((branchOf executed).entering (.start ⟨[], 0, none⟩ 0 .never 0) mixedSample).depthAfter
      (.ofLine (.ofFiles []) fullAllowance 1 (branchOf executed).next) = (true, 0) := by decide +kernel
  have hcaptures (executed : Bool) : (branchOf executed).CapturesInMacro := fun h => by cases h
  obtain ⟨t, hrun, hclosed⟩ := LineState.eq_of_depthAfter.1 (hruns true)
  obtain ⟨t', hrun', -⟩ := LineState.eq_of_depthAfter.1 (hruns false)
  refine ⟨t, t', hregular, rfl, rfl, hrun, hrun', hclosed, ?_⟩
  exact ((outline_whatever_conditions (hcaptures true) (hcaptures false) rfl rfl rfl hregular hrun).1 t' hrun').1

/-- An `ELIF` without a condition is passed over if a branch before it was executed.
Otherwise it stops the line, and the `ENDIF` behind it is lost. -/
theorem elif_without_condition_keeps_if_open : ∃ t stop t',
    (branchOf true).isLive = true ∧ (branchOf false).isLive = false ∧
      (branchOf false).outline = (branchOf true).outline ∧
      LineM.statements (.ofLine (.ofFiles []) fullAllowance 1 (branchOf true).next)
        ((branchOf true).entering (.start ⟨[], 0, none⟩ 0 .never 0) "ELIF: ENDIF") = .ok () t ∧
      t.walk.conditionals.length = 0 ∧
      LineM.statements (.ofLine (.ofFiles []) fullAllowance 1 (branchOf false).next)
        ((branchOf false).entering (.start ⟨[], 0, none⟩ 0 .never 0) "ELIF: ENDIF") = .error stop t' ∧
      t'.walk.conditionals.length = 1 := by
  have hruns : ∀ executed, ((branchOf executed).entering (.start ⟨[], 0, none⟩ 0 .never 0) "ELIF: ENDIF").depthAfter
      (.ofLine (.ofFiles []) fullAllowance 1 (branchOf executed).next) =
        if executed then (true, 0) else (false, 1) := by decide +kernel
  obtain ⟨t, hrun, hclosed⟩ := LineState.eq_of_depthAfter.1 (hruns true)
  obtain ⟨stop, t', hrun', hopen⟩ := LineState.eq_of_depthAfter.2 (hruns false)
  exact ⟨t, stop, t', rfl, rfl, rfl, hrun, hclosed, hrun', hopen⟩

end Asm6502
