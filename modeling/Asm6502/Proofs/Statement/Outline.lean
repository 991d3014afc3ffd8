/-
# What the text of a line says of its structure

The outline of the open conditionals is what is left of them without what was
evaluated: where they were opened, whether an `ELSE` came and whether they belong
to the definition of a macro. What `IF`, `ELIF`, `ELSE`, `ENDIF`, `MACRO` and
`ENDMACRO` make of an outline can be read off the text. So the text alone says what
a line makes of it, provided that it is known where its statements start.

Skipped statements end at separators, executed ones where they are read to. The
places agree, but behind a label or a brace another statement starts at once if it
is executed, and it is skipped with the label if it is not. In a regular line, no
directive that structures the text is lost that way.

Key definitions: `Walk.outline`, `Directive.reshape?`, `Cursor.nextStatement`,
`Cursor.outlineAfter?`, `Cursor.Starts`, `Cursor.IsRegular`.
Key theorems: `Cursor.outlineAfter?_skipStatement`,
`Cursor.outlineAfter?_pastMark`, `Cursor.isRegular_of_closed`.
-/
import Asm6502.Proofs.Statement.Span

namespace Asm6502

/-! ### Outlines -/

namespace Conditional

/-- An open conditional apart from what was evaluated for it. -/
def outline (f : Conditional) : Conditional := { f with condition := false, passed := false }

theorem outline_setCondition (condition : Bool) (frames : List Conditional) :
    (setCondition condition frames).map outline = frames.map outline := by
  cases frames <;> rfl

theorem any_isMacro_outline (frames : List Conditional) : (frames.map outline).any isMacro = frames.any isMacro := by
  rw [List.any_map]
  rfl

end Conditional

namespace Walk

/-- The open conditionals of a walk apart from what was evaluated for them. -/
def outline (w : Walk) : List Conditional := w.conditionals.map Conditional.outline

/-- Whether lines are captured only inside the definition of a macro. -/
def CapturesInMacro (w : Walk) : Prop := w.capture.isSome = true → w.conditionals.any Conditional.isMacro = true

/-- Whether the condition of an `ELIF` would be evaluated: everything around the
conditional is executed, and no branch of it was. -/
def awaitsBranch (w : Walk) : Bool := w.isOuterLive && w.conditionals.head?.any (!·.passed)

end Walk

/-- Whether the parameters of a macro can be read at a place, up to the end of the
statement. The comma before the first is optional. -/
def Cursor.readsParameters (first : Bool) : Nat → Cursor → Bool
  | 0, _ => true
  | steps + 1, c =>
    let c := c.skipBlanks
    let comma := c.peek == some ','
    let d := if comma then (c.skip 1).skipBlanks else c
    c.atStatementEnd || ((comma || first) && d.atName && readsParameters false steps d.name.2)

/-- Whether the name and the parameters of a macro can be read at a place. -/
def Cursor.readsHeader (c : Cursor) : Bool :=
  let d := c.skipBlanks
  d.atName && d.name.2.readsParameters true (d.name.2.rest.length + 1)

namespace Directive

/-- Whether a directive opens, continues or closes a conditional or the definition
of a macro. -/
def isBlock : Directive → Bool
  | ifBlock | elifBlock | elseBlock | endif | macroHeader | endMacro => true
  | _ => false

/-- Whether another statement may follow a directive without a separator. -/
def isOpenEnded : Directive → Bool
  | label | openBrace | closeBrace => true
  | _ => false

/-- Whether what follows a directive can be read, conditions apart. -/
def reads (d : Directive) (c : Cursor) : Bool :=
  match d with
  | elseBlock | endif | endMacro => c.atStatementEnd
  | macroHeader => c.readsHeader
  | _ => true

/-- What a directive at a place makes of the outline of the open conditionals, none
if it cannot stand there. -/
def reshape? (d : Directive) (spot : Spot) (frames : List Conditional) : Option (List Conditional) :=
  match d, frames with
  | ifBlock, frames =>
    if frames.length < maxConditionals then some (⟨false, false, false, false, spot⟩ :: frames) else none
  | elifBlock, f :: frames => if f.isMacro || f.hadElse then none else some (f :: frames)
  | elseBlock, f :: frames => if f.isMacro || f.hadElse then none else some ({ f with hadElse := true } :: frames)
  | endif, f :: frames => if f.isMacro then none else some frames
  | macroHeader, frames =>
    if frames.any Conditional.isMacro || maxConditionals ≤ frames.length then none
    else some (⟨false, false, false, true, spot⟩ :: frames)
  | endMacro, f :: frames => if f.isMacro then some frames else none
  | _, _ => none

section
variable (spot : Spot)

theorem reshape?_ifBlock (frames : List Conditional) :
    reshape? .ifBlock spot (frames.map Conditional.outline) =
      (Conditional.openIf frames spot).toOption.map (List.map Conditional.outline) := by
  simp only [reshape?, Conditional.openIf, List.length_map]
  split_ifs <;> first | omega | rfl

theorem reshape?_elifBlock (frames : List Conditional) :
    reshape? .elifBlock spot (frames.map Conditional.outline) =
      (Conditional.startElif frames).toOption.map fun started => started.2.map Conditional.outline := by
  cases frames with
  | nil => rfl
  | cons f frames =>
    obtain ⟨condition, passed, hadElse, isMacro, openedAt⟩ := f
    cases isMacro <;> cases hadElse <;> cases passed <;> rfl

theorem reshape?_elseBlock (frames : List Conditional) :
    reshape? .elseBlock spot (frames.map Conditional.outline) =
      (Conditional.startElse frames).toOption.map (List.map Conditional.outline) := by
  cases frames with
  | nil => rfl
  | cons f frames =>
    simp only [reshape?, Conditional.startElse, List.map_cons, Conditional.outline]
    cases f.isMacro <;> cases f.hadElse <;> rfl

theorem reshape?_endif (frames : List Conditional) :
    reshape? .endif spot (frames.map Conditional.outline) =
      (Conditional.close frames).toOption.map (List.map Conditional.outline) := by
  cases frames with
  | nil => rfl
  | cons f frames =>
    simp only [reshape?, Conditional.close, List.map_cons, Conditional.outline]
    cases f.isMacro <;> rfl

theorem reshape?_macroHeader {w : Walk} (hw : w.CapturesInMacro) (definition : Option Macro) :
    reshape? .macroHeader spot w.outline = (w.startMacro definition spot).toOption.map Walk.outline := by
  have hcapture : (w.capture.isSome || w.conditionals.any Conditional.isMacro) =
      w.conditionals.any Conditional.isMacro := by
    cases hsome : w.capture.isSome with
    | false => rfl
    | true => rw [hw hsome, Bool.or_self]
  simp only [reshape?, Walk.startMacro, Walk.outline, hcapture, Conditional.any_isMacro_outline, List.length_map,
    Conditional.openMacro]
  cases w.conditionals.any Conditional.isMacro with
  | true => rfl
  | false =>
    by_cases hfull : maxConditionals ≤ w.conditionals.length
    · rw [if_pos (by simp [hfull]), if_neg Bool.false_ne_true, if_pos hfull]
      rfl
    · rw [if_neg (by simp [hfull]), if_neg Bool.false_ne_true, if_neg hfull]
      rfl

theorem reshape?_endMacro (w : Walk) :
    reshape? .endMacro spot w.outline = w.endMacro.toOption.map fun ended => ended.2.outline := by
  unfold Walk.outline Walk.endMacro
  cases w.conditionals with
  | nil => rfl
  | cons f frames =>
    simp only [reshape?, List.map_cons, Conditional.outline]
    cases f.isMacro <;> rfl

end

/-- Only `ENDMACRO` closes the definition of a macro. -/
theorem any_isMacro_of_reshape? {d : Directive} {spot : Spot} {frames frames' : List Conditional} (hd : d ≠ .endMacro)
    (h : d.reshape? spot frames = some frames') (hdefines : frames.any Conditional.isMacro = true) :
    frames'.any Conditional.isMacro = true := by
  unfold reshape? at h
  split at h
  case h_6 => exact absurd rfl hd
  case h_7 => cases h
  all_goals
    split_ifs at h with hcases
    cases h
    simp_all

end Directive

/-! ### Places of a line -/

namespace Cursor

variable {c d p : Cursor} {e : Directive} {index : Nat} {frames : List Conditional}

/-- The directive that the statement at a place starts with, executed or not. -/
def directive? (c : Cursor) : Option Directive :=
  if c.atAssignment then none else (Directive.find? c.rest).map Prod.snd

/-- The place behind the label or the brace at a place. -/
def pastMark (c : Cursor) : Cursor :=
  if c.peek = some '.' then
    ((c.skip 1).skip (LineM.Promotion.ofMark (c.skip 1).peek).mark.length).name.2
  else c.skip 1

/-- The place behind the statement at a place if it is skipped. A sign by itself is
a statement that is not skipped. -/
def nextStatement (c : Cursor) : Cursor :=
  match c.directive? with
  | some .separator => c.skip 1
  | some .comment => c.skipLine
  | _ => c.skipStatement

theorem find?_of_directive? (h : c.directive? = some e) :
    c.atAssignment = false ∧ ∃ spelling, Directive.find? c.rest = some (spelling, e) := by
  unfold directive? at h
  split_ifs at h with hassignment
  obtain ⟨⟨spelling, e'⟩, hfind, rfl⟩ := Option.map_eq_some_iff.mp h
  exact ⟨by simpa using hassignment, spelling, hfind⟩

theorem startsWith_of_find? {spelling : String} (h : Directive.find? c.rest = some (spelling, e)) :
    startsWith spelling.toList c.rest = true := by
  have hspelled := List.find?_some h
  simp only [Directive.spelledAt, Bool.and_eq_true] at hspelled
  exact hspelled.1

theorem spans_spelling {spelling : String} (h : Directive.find? c.rest = some (spelling, e))
    (hseparator : e ≠ .separator) (hcomment : e ≠ .comment) : c.Spans (c.skip spelling.length) := by
  have hall : ∀ q ∈ Directive.spellings, q.2 ≠ .separator → q.2 ≠ .comment →
      q.1.toList.all isOrdinary = true := by decide
  rw [← String.length_toList]
  exact spans_startsWith (hall _ (List.mem_of_find?_eq_some h) hseparator hcomment) (startsWith_of_find? h)

/-- Only letters have another upper case. -/
theorem peek_of_startsWith {x : Char} (hx : isNameChar x = false) (h : startsWith [x] c.rest = true) :
    c.peek = some x := by
  unfold startsWith at h
  cases hrest : c.rest with
  | nil =>
    rw [hrest] at h
    cases h
  | cons y ys =>
    obtain rfl : y.toUpper = x := by simpa [hrest] using h
    rcases toUpper_cases y with ⟨-, hupper⟩ | hsame
    · rw [isNameChar_of_letter (Or.inl hupper)] at hx
      cases hx
    · rw [peek, hrest, hsame]
      rfl

/-- Labels, braces, separators and comments are signs of one character. -/
theorem exists_sign_of_find? {spelling : String} (h : Directive.find? c.rest = some (spelling, e))
    (he : e.isOpenEnded = true ∨ e = .separator ∨ e = .comment) :
    ∃ x, spelling.length = 1 ∧ c.peek = some x ∧ (x = '.' ↔ e = .label) ∧ isOrdinary x = e.isOpenEnded ∧
      isStatementEnd x = !e.isOpenEnded := by
  have hall : ∀ q ∈ Directive.spellings, q.2.isOpenEnded = true ∨ q.2 = .separator ∨ q.2 = .comment →
      q.1.toList = [q.1.toList.headD '.'] ∧ isNameChar (q.1.toList.headD '.') = false ∧
        (q.1.toList.headD '.' = '.' ↔ q.2 = .label) ∧ isOrdinary (q.1.toList.headD '.') = q.2.isOpenEnded ∧
        isStatementEnd (q.1.toList.headD '.') = !q.2.isOpenEnded := by decide
  obtain ⟨hspelling, hname, hfacts⟩ := hall _ (List.mem_of_find?_eq_some h) he
  have hstarts := startsWith_of_find? h
  rw [hspelling] at hstarts
  refine ⟨_, ?_, peek_of_startsWith hname hstarts, hfacts⟩
  rw [← String.length_toList, hspelling]
  rfl

theorem spans_pastMark (h : c.directive? = some e) (he : e.isOpenEnded = true) : c.Spans c.pastMark := by
  obtain ⟨-, spelling, hfind⟩ := find?_of_directive? h
  obtain ⟨x, -, hpeek, -, hordinary, -⟩ := exists_sign_of_find? hfind (Or.inl he)
  have hsign : c.Spans (c.skip 1) := spans_skip_one hpeek (hordinary.trans he)
  have hmark : (c.skip 1).Spans ((c.skip 1).skip (LineM.Promotion.ofMark (c.skip 1).peek).mark.length) := by
    unfold LineM.Promotion.ofMark
    split
    · rename_i hpeek
      exact spans_skip_one hpeek rfl
    · rename_i hpeek
      exact spans_skip_one hpeek rfl
    · exact .refl _
  unfold pastMark
  split_ifs
  · exact (hsign.trans hmark).trans (spans_name _)
  · exact hsign

theorem atStatementEnd_of_directive? (h : c.skipBlanks.directive? = some e) (he : e = .separator ∨ e = .comment) :
    c.atStatementEnd = true := by
  obtain ⟨-, spelling, hfind⟩ := find?_of_directive? h
  obtain ⟨x, -, hpeek, -, -, hend⟩ := exists_sign_of_find? hfind (Or.inr he)
  obtain ⟨xs, hrest⟩ := List.head?_eq_some_iff.mp hpeek
  rw [atStatementEnd, hrest]
  rcases he with rfl | rfl <;> exact hend

theorem nextStatement_eq_skipStatement (h : ∀ e, c.directive? = some e → e ≠ .separator ∧ e ≠ .comment) :
    c.nextStatement = c.skipStatement := by
  unfold nextStatement
  split
  · rename_i hd
    exact absurd rfl (h _ hd).1
  · rename_i hd
    exact absurd rfl (h _ hd).2
  · rfl

/-- A statement takes at least one character. -/
theorem length_nextStatement_lt (h : c.rest ≠ []) : c.nextStatement.rest.length < c.rest.length := by
  obtain ⟨x, xs, hrest⟩ := List.exists_cons_of_ne_nil h
  have hskip {n : Nat} (hn : 0 < n) : (c.skip n).rest.length < c.rest.length := by
    rw [skip, List.length_drop, hrest, List.length_cons]
    omega
  unfold nextStatement
  split
  · exact hskip Nat.one_pos
  · exact hskip (by rw [hrest]; exact Nat.succ_pos _)
  · rename_i hseparator hcomment
    -- the signs that end a statement are statements themselves
    have hx : isStatementEnd x = false := by
      by_contra hend
      have hname : c.atAssignment = false := by
        have hstart : isNameStart x = false := by
          by_contra hstart
          exact hend (isStatementEnd_of_isNameChar (isNameChar_of_isNameStart (by simpa using hstart)))
        rw [atAssignment, atName, hrest]
        dsimp only
        rw [hstart, Bool.false_and]
      have hsign : Directive.find? c.rest = some (":", .separator) ∨ Directive.find? c.rest = some (";", .comment) ∨
          Directive.find? c.rest = some ("\\", .comment) := by
        rw [hrest]
        simp only [isStatementEnd, Bool.not_eq_false, Bool.or_eq_true, beq_iff_eq] at hend
        rcases hend with (rfl | rfl) | rfl
        · exact Or.inl rfl
        · exact Or.inr (Or.inl rfl)
        · exact Or.inr (Or.inr rfl)
      unfold directive? at hseparator hcomment
      rcases hsign with hsign | hsign | hsign <;> simp [hname, hsign] at hseparator hcomment
    refine hskip ?_
    rw [hrest]
    exact statementLength_pos hx xs

/-- What the statement at a place makes of an outline. -/
def outlineOf? (index : Nat) (c : Cursor) (frames : List Conditional) : Option (List Conditional) :=
  match Directive.find? c.rest with
  | some (spelling, e) =>
    if c.atAssignment || !e.isBlock then some frames
    else if e.reads (c.skip spelling.length) then e.reshape? ⟨index, c.column⟩ frames
    else none
  | none => some frames

/-- What the line from a place on makes of an outline if no condition and no
statement raises a problem. -/
def outlineAfter? (index : Nat) (c : Cursor) (frames : List Conditional) : Option (List Conditional) :=
  if _h : c.skipBlanks.rest = [] then some frames
  else (c.skipBlanks.outlineOf? index frames).bind fun frames => c.skipBlanks.nextStatement.outlineAfter? index frames
termination_by c.rest.length
decreasing_by exact (length_nextStatement_lt _h).trans_le c.length_skipBlanks_le

theorem outlineAfter?_skipBlanks : c.skipBlanks.outlineAfter? index frames = c.outlineAfter? index frames := by
  rw [outlineAfter?, outlineAfter?, skipBlanks_skipBlanks]

theorem outlineOf?_of_not_isBlock (h : ∀ e, c.directive? = some e → e.isBlock = false) :
    c.outlineOf? index frames = some frames := by
  unfold outlineOf?
  cases hfind : Directive.find? c.rest with
  | none => rfl
  | some found =>
    obtain ⟨spelling, e⟩ := found
    cases hassignment : c.atAssignment with
    | true => rfl
    | false =>
      have he : e.isBlock = false := h e (by rw [directive?, hassignment, hfind]; rfl)
      dsimp only
      rw [he]
      rfl

theorem outlineOf?_of_isBlock {spelling : String} (hassignment : c.atAssignment = false)
    (hfind : Directive.find? c.rest = some (spelling, e)) (he : e.isBlock = true) :
    c.outlineOf? index frames =
      if e.reads (c.skip spelling.length) then e.reshape? ⟨index, c.column⟩ frames else none := by
  unfold outlineOf?
  rw [hfind]
  dsimp only
  rw [hassignment, he]
  rfl

/-- A statement that structures nothing counts for nothing. -/
theorem outlineAfter?_nextStatement (hrest : c.skipBlanks.rest ≠ [])
    (h : ∀ e, c.skipBlanks.directive? = some e → e.isBlock = false) :
    c.outlineAfter? index frames = c.skipBlanks.nextStatement.outlineAfter? index frames := by
  rw [outlineAfter?, dif_neg hrest, outlineOf?_of_not_isBlock h]
  rfl

theorem outlineAfter?_skipStatement (hrest : c.skipBlanks.rest ≠ [])
    (h : ∀ e, c.skipBlanks.directive? = some e → e.isBlock = false ∧ e ≠ .separator ∧ e ≠ .comment) :
    c.outlineAfter? index frames = c.skipStatement.outlineAfter? index frames := by
  rw [outlineAfter?_nextStatement hrest fun e he => (h e he).1,
    nextStatement_eq_skipStatement fun e he => (h e he).2, ← c.spans_skipBlanks.skipStatement_congr]

/-- A label or a brace counts for nothing, and the statement behind it is skipped
with it if it is skipped. -/
theorem outlineAfter?_pastMark (h : c.directive? = some e) (he : e.isOpenEnded = true)
    (hbehind : ∀ e', c.pastMark.skipBlanks.directive? = some e' → e'.isBlock = false) (hblanks : c.skipBlanks = c)
    (hrest : c.rest ≠ []) :
    c.outlineAfter? index frames = c.pastMark.outlineAfter? index frames := by
  have hspans : c.Spans c.pastMark := spans_pastMark h he
  have hmark : c.outlineAfter? index frames = c.skipStatement.outlineAfter? index frames := by
    refine outlineAfter?_skipStatement (by rwa [hblanks]) fun e' he' => ?_
    rw [hblanks, h] at he'
    obtain rfl := Option.some.inj he'
    revert he
    cases e <;> decide
  rw [hmark]
  by_cases hend : c.pastMark.atStatementEnd = true
  · rw [hspans.skipStatement_eq hend, outlineAfter?_skipBlanks]
  · rw [hspans.skipStatement_congr]
    refine (outlineAfter?_skipStatement (fun hnil => hend ?_) fun e' he' => ⟨hbehind e' he', ?_, ?_⟩).symm
    · rw [atStatementEnd, hnil]
    · rintro rfl
      exact hend (atStatementEnd_of_directive? he' (Or.inl rfl))
    · rintro rfl
      exact hend (atStatementEnd_of_directive? he' (Or.inr rfl))

/-- The places from `c` on where a statement starts, executed or skipped: the first,
one after another, and also one behind a label or a brace. -/
inductive Starts (c : Cursor) : Cursor → Prop
  | first : Starts c c.skipBlanks
  | next {d : Cursor} (h : Starts c d) (hrest : d.rest ≠ []) : Starts c d.nextStatement.skipBlanks
  | behind {d : Cursor} {e : Directive} (h : Starts c d) (hd : d.directive? = some e) (he : e.isOpenEnded = true) :
      Starts c d.pastMark.skipBlanks

theorem starts_self (hblanks : c.skipBlanks = c) : c.Starts c := by
  have hfirst : c.Starts c.skipBlanks := .first
  rwa [hblanks] at hfirst

/-- Whether the line from a place on has no `NEXT` and no `ASM`, and neither a label
nor a brace is directly followed by a directive that opens, continues or closes a
block. -/
structure IsRegular (c : Cursor) : Prop where
  flat : ∀ {d}, c.Starts d → d.directive? ≠ some .next ∧ d.directive? ≠ some .asm
  separated : ∀ {d e e'}, c.Starts d → d.directive? = some e → e.isOpenEnded = true →
    d.pastMark.skipBlanks.directive? = some e' → e'.isBlock = false

theorem IsRegular.of_starts (h : c.IsRegular) (hd : c.Starts d.skipBlanks) : d.IsRegular := by
  have hstarts {p : Cursor} (hp : d.Starts p) : c.Starts p := by
    induction hp with
    | first => exact hd
    | next _ hrest ih => exact .next ih hrest
    | behind _ hd he ih => exact .behind ih hd he
  exact ⟨fun hp => h.flat (hstarts hp), fun hp => h.separated (hstarts hp)⟩

/-- Places that contain all statements of a line show that it is regular. -/
theorem isRegular_of_closed (places : List Cursor) (hfirst : c.skipBlanks ∈ places)
    (hflat : ∀ d ∈ places, d.directive? ≠ some .next ∧ d.directive? ≠ some .asm)
    (hnext : ∀ d ∈ places, d.rest ≠ [] → d.nextStatement.skipBlanks ∈ places)
    (hbehind : ∀ d ∈ places, d.directive?.any Directive.isOpenEnded = true →
      d.pastMark.skipBlanks ∈ places ∧ d.pastMark.skipBlanks.directive?.any Directive.isBlock = false) :
    c.IsRegular := by
  have hmem {d : Cursor} (hd : c.Starts d) : d ∈ places := by
    induction hd with
    | first => exact hfirst
    | next _ hrest ih => exact hnext _ ih hrest
    | behind _ hd he ih => exact (hbehind _ ih (by rw [hd]; exact he)).1
  refine ⟨fun hd => hflat _ (hmem hd), fun {d e e'} hd he hopen he' => ?_⟩
  have hblock := (hbehind _ (hmem hd) (by rw [he]; exact hopen)).2
  rwa [he'] at hblock

end Cursor

end Asm6502
