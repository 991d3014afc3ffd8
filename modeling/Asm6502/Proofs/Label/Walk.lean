/-
# What holds of a walk while it executes lines

The lines of a buffer stand in a file. A walk enters them where a statement may
start: at the first column, or where a loop goes on after its `FOR`. The text
captured for a macro is that of the lines after its header, so a macro that is
called has its lines from the same file; and while a macro is captured nothing
is executed, so no loop goes back over the lines of its body.

Key definitions: `Buffer.IsEntry`, `Capture.IsSound`, `Walk.IsSound`.
Key theorems: `Capture.IsSound.isFaithful`, `Walk.IsSound.captureLine`,
`Walk.IsSound.capture_eq_none`.
-/
import Asm6502.Proofs.Label.Invariant

namespace Asm6502

namespace Buffer

/-- Whether statements may start at a place of the buffer. -/
def IsEntry (b : Buffer) (spot : Spot) : Prop :=
  ∀ line, b.lines[spot.index]? = some line →
    (Cursor.ofColumn line spot.column).Between line.toList

theorem isEntry_start (b : Buffer) (index : Nat) : b.IsEntry ⟨index, 0⟩ := by
  intro line _
  rw [Cursor.ofColumn, dropBytes]
  exact ⟨[], Cursor.stands_ofText line, Or.inr rfl⟩

/-- The lines after `start` and before `stop`. -/
def linesBetween (b : Buffer) (start stop : Nat) : List String :=
  (b.lines.toList.drop (start + 1)).take (stop - 1 - start)

theorem linesBetween_self (b : Buffer) (start : Nat) : b.linesBetween start start = [] := by
  rw [linesBetween, show start - 1 - start = 0 by omega, List.take_zero]

theorem linesBetween_succ_self (b : Buffer) (start : Nat) : b.linesBetween start (start + 1) = [] := by
  rw [linesBetween, show start + 1 - 1 - start = 0 by omega, List.take_zero]

theorem linesBetween_succ (b : Buffer) {start index : Nat} (h : start < index) {line : String}
    (hline : b.lines[index]? = some line) :
    b.linesBetween start (index + 1) = b.linesBetween start index ++ [line] := by
  obtain ⟨k, rfl⟩ := Nat.exists_eq_add_of_lt h
  rw [linesBetween, linesBetween, show start + k + 1 + 1 - 1 - start = k + 1 by omega,
    show start + k + 1 - 1 - start = k by omega, List.take_add_one, List.getElem?_drop,
    Array.getElem?_toList, show start + 1 + k = start + k + 1 by omega, hline]
  rfl

end Buffer

theorem Text.unlines_concat (ls : List String) (line : String) :
    unlines (ls ++ [line]) = unlines ls ++ line ++ "\n" := by
  rw [unlines, List.foldl_append]
  rfl

/-- A part of an excerpt is an excerpt. -/
theorem IsExcerpt.part {library : Library} {files : Array Path} {file first : Nat} {lines : List String}
    (h : IsExcerpt library files file first lines) (k n : Nat) :
    IsExcerpt library files file (first + k) ((lines.drop k).take n) := by
  intro i line hi
  rw [List.getElem?_take] at hi
  split_ifs at hi
  rw [List.getElem?_drop] at hi
  rw [Nat.add_assoc]
  exact h (k + i) line hi

/-- A macro whose lines up to the line `index` have been captured. -/
structure Capture.IsSound (b : Buffer) (index : Nat) (c : Capture) : Prop where
  file : c.definition.definedAt.file = b.file
  line : c.definition.definedAt.line = b.firstLine + c.startIndex
  parameters : ∀ parameter ∈ c.definition.parameters, IsPlain parameter
  started : c.startIndex ≤ index
  body : c.definition.body = Text.unlines (b.linesBetween c.startIndex index)

/-- A macro that has just been named has no line yet. -/
theorem Capture.isSound_header (b : Buffer) (index column : Nat) (name : String) {parameters : List String}
    (h : ∀ parameter ∈ parameters, IsPlain parameter) :
    (⟨{ Macro.ofHeader name (b.position index column) with parameters }, index⟩ : Capture).IsSound b index where
  file := rfl
  line := rfl
  parameters := h
  started := Nat.le_refl _
  body := by
    rw [Buffer.linesBetween_self]
    rfl

theorem Capture.IsSound.isFaithful {library : Library} {files : Array Path} {b : Buffer} {index : Nat}
    {c : Capture} (h : c.IsSound b index)
    (hb : IsExcerpt library files b.file b.firstLine b.lines.toList) :
    c.definition.IsFaithful library files := by
  refine ⟨?_, h.parameters⟩
  rw [h.file, h.line, h.body, Nat.add_assoc]
  exact (hb.part (c.startIndex + 1) _).unlines

/-! ### Conditionals -/

namespace Conditional

/-- Whether the macro definitions among the frames are the same. -/
def SameMacros (frames frames' : List Conditional) : Prop :=
  ∀ c : Conditional, c.isMacro = true → (c ∈ frames' ↔ c ∈ frames)

variable {frames frames' : List Conditional} {f g : Conditional}

theorem sameMacros_push (hg : g.isMacro = false) : SameMacros frames (g :: frames) := by
  intro c hc
  rw [List.mem_cons, or_iff_right]
  rintro rfl
  exact absurd hc (Bool.eq_false_iff.mp hg)

theorem SameMacros.symm (h : SameMacros frames frames') : SameMacros frames' frames :=
  fun c hc => (h c hc).symm

theorem SameMacros.trans {frames'' : List Conditional} (h : SameMacros frames frames')
    (h' : SameMacros frames' frames'') : SameMacros frames frames'' :=
  fun c hc => (h' c hc).trans (h c hc)

theorem sameMacros_head (hf : f.isMacro = false) (hg : g.isMacro = false) :
    SameMacros (f :: frames) (g :: frames) :=
  (sameMacros_push hf).symm.trans (sameMacros_push hg)

theorem sameMacros_openIf {spot : Spot}
    (h : (openIf frames spot).map (setCondition false) = .ok frames') :
    SameMacros frames frames' ∧ ∀ f ∈ frames'.head?, f.isMacro = false := by
  unfold openIf at h
  split_ifs at h
  · cases h
  · cases h
    exact ⟨sameMacros_push rfl, by simp [setCondition]⟩

theorem sameMacros_startElif {wanted : Bool} (h : startElif frames = .ok (wanted, frames')) :
    SameMacros frames frames' ∧ ∀ f ∈ frames'.head?, f.isMacro = false := by
  cases frames with
  | nil => cases h
  | cons f frames =>
    simp only [startElif] at h
    split_ifs at h with hisMacro helse hpassed
    all_goals
      cases h
      have hf := Bool.eq_false_iff.mpr hisMacro
      exact ⟨sameMacros_head hf hf, by simpa using hf⟩

theorem sameMacros_startElse (h : startElse frames = .ok frames') : SameMacros frames frames' := by
  cases frames with
  | nil => cases h
  | cons f frames =>
    simp only [startElse] at h
    split_ifs at h with hisMacro helse
    cases h
    have hf := Bool.eq_false_iff.mpr hisMacro
    exact sameMacros_head hf hf

theorem sameMacros_close (h : close frames = .ok frames') : SameMacros frames frames' := by
  cases frames with
  | nil => cases h
  | cons f frames =>
    simp only [close] at h
    split_ifs at h with hisMacro
    cases h
    exact (sameMacros_push (Bool.eq_false_iff.mpr hisMacro)).symm

theorem sameMacros_setCondition {condition : Bool} (h : ∀ f ∈ frames.head?, f.isMacro = false) :
    SameMacros frames (setCondition condition frames) := by
  cases frames with
  | nil => exact fun _ _ => Iff.rfl
  | cons f frames => exact sameMacros_head (h f rfl) (h f rfl)

end Conditional

/-! ### Walks -/

namespace Walk

/-- What holds of a walk whose lines before `index` have been captured. -/
structure IsSound (library : Library) (files : Array Path) (index : Nat) (w : Walk) : Prop where
  buffer : IsExcerpt library files w.buffer.file w.buffer.firstLine w.buffer.lines.toList
  /-- The lines of a macro are skipped. -/
  skipped : ∀ c ∈ w.conditionals, c.isMacro = true → c.condition = false
  loops : ∀ f ∈ w.own, ∀ l, f.kind = .loop l → IsPlain l.name ∧ w.buffer.IsEntry l.resume
  capture : ∀ c, w.capture = some c →
    (∃ d ∈ w.conditionals, d.isMacro = true) ∧ c.IsSound w.buffer index

variable {library : Library} {files files' : Array Path} {index : Nat} {w : Walk}

theorem isSound_start {b : Buffer} {frames : List Frame}
    (hb : IsExcerpt library files b.file b.firstLine b.lines.toList) :
    (start b frames).IsSound library files 0 where
  buffer := hb
  skipped _ hc := by cases hc
  loops _ hf := by cases hf
  capture _ hc := by cases hc

theorem IsSound.mono (h : w.IsSound library files index) (hgrow : FilesGrow files files') :
    w.IsSound library files' index := { h with buffer := h.buffer.mono hgrow }

/-- Nothing is captured where statements are executed. -/
theorem IsSound.capture_eq_none (h : w.IsSound library files index) (hlive : w.isLive = true) :
    w.capture = none := by
  cases hcapture : w.capture with
  | none => rfl
  | some c =>
    obtain ⟨⟨d, hd, hisMacro⟩, -⟩ := h.capture c hcapture
    have hcondition := List.all_eq_true.mp hlive d hd
    rw [h.skipped d hd hisMacro] at hcondition
    cases hcondition

theorem IsSound.changeConditionals (h : w.IsSound library files index) {conditionals : List Conditional}
    (hsame : Conditional.SameMacros w.conditionals conditionals) :
    ({ w with conditionals } : Walk).IsSound library files index where
  buffer := h.buffer
  skipped c hc hisMacro := h.skipped c ((hsame c hisMacro).mp hc) hisMacro
  loops := h.loops
  capture c hcapture := by
    obtain ⟨⟨d, hd, hisMacro⟩, hc⟩ := h.capture c hcapture
    exact ⟨⟨d, (hsame d hisMacro).mpr hd, hisMacro⟩, hc⟩

theorem IsSound.changeOwn (h : w.IsSound library files index) (own : List Frame)
    (hloops : ∀ f ∈ own, f ∈ w.own ∨
      ∀ l, f.kind = .loop l → IsPlain l.name ∧ w.buffer.IsEntry l.resume) :
    ({ w with own } : Walk).IsSound library files index where
  buffer := h.buffer
  skipped := h.skipped
  loops f hf := (hloops f hf).elim (h.loops f) id
  capture := h.capture

theorem IsSound.startMacro {w' : Walk} {m : Option Macro} {column : Nat}
    (h : w.IsSound library files index) (hstart : w.startMacro m ⟨index, column⟩ = .ok w')
    (hm : ∀ definition ∈ m, (⟨definition, index⟩ : Capture).IsSound w.buffer index) :
    ∃ conditionals capture, w' = { w with conditionals, capture } ∧ w'.IsSound library files index := by
  unfold Walk.startMacro Conditional.openMacro at hstart
  split_ifs at hstart with hopen hmany
  · cases hstart
  cases hstart
  refine ⟨_, _, rfl, h.buffer, ?_, h.loops, ?_⟩
  · intro c hc hisMacro
    rcases List.mem_cons.mp hc with rfl | hc
    · rfl
    · exact h.skipped c hc hisMacro
  · intro c hc
    obtain ⟨definition, hdefinition, rfl⟩ := Option.map_eq_some_iff.mp hc
    exact ⟨⟨_, List.mem_cons_self, rfl⟩, hm definition hdefinition⟩

theorem IsSound.endMacro {w' : Walk} {m : Option Macro} (h : w.IsSound library files index)
    (hend : w.endMacro = .ok (m, w')) :
    (∀ definition ∈ m, definition.IsFaithful library files) ∧
      ∃ conditionals, w' = { w with conditionals, capture := none } ∧
        w'.IsSound library files index := by
  unfold Walk.endMacro at hend
  split at hend
  · rename_i f conditionals hconditionals
    split_ifs at hend
    cases hend
    refine ⟨?_, conditionals, rfl, h.buffer, ?_, h.loops, fun c hc => by cases hc⟩
    · intro definition hdefinition
      obtain ⟨c, hc, rfl⟩ := Option.map_eq_some_iff.mp hdefinition
      exact (h.capture c hc).2.isFaithful h.buffer
    · intro c hc
      exact h.skipped c (by rw [hconditionals]; exact List.mem_cons_of_mem _ hc)
  · cases hend

/-- A line that has been executed is captured, if anything is. -/
theorem IsSound.captureLine (h : w.IsSound library files index) {line : String}
    (hline : w.buffer.lines[index]? = some line) :
    (w.captureLine index line).IsSound library files (index + 1) := by
  unfold Walk.captureLine
  cases hcapture : w.capture with
  | none => exact { h with capture := fun c hc => by rw [hcapture] at hc; cases hc }
  | some c =>
    obtain ⟨hisMacro, hc⟩ := h.capture c hcapture
    dsimp only
    split_ifs with hstart
    · refine { h with capture := fun c' hc' => ?_ }
      cases hcapture.symm.trans hc'
      refine ⟨hisMacro, { hc with started := Nat.le_succ_of_le hc.started, body := ?_ }⟩
      rw [hc.body, hstart, Buffer.linesBetween_self, Buffer.linesBetween_succ_self]
    · refine { h with capture := fun c' hc' => ?_ }
      cases hc'
      refine ⟨hisMacro, ⟨hc.file, hc.line, hc.parameters, Nat.le_succ_of_le hc.started, ?_⟩⟩
      have hlt := Nat.lt_of_le_of_ne hc.started hstart
      simp only [Macro.addLine]
      rw [Buffer.linesBetween_succ _ hlt hline, Text.unlines_concat, hc.body]

/-! ### Scopes -/

theorem eq_of_openScope {r r' : Run} {w' : Walk} {kind : FrameKind} {spot : Spot}
    (h : w.openScope r kind spot = .ok (w', r')) :
    w' = { w with own := ⟨kind, r.lastScope + 1, 0, spot⟩ :: w.own } ∧
      r' = { r with lastScope := r.lastScope + 1 } := by
  unfold openScope at h
  split_ifs at h
  cases h
  exact ⟨rfl, rfl⟩

theorem eq_of_startLoop {r r' : Run} {w' : Walk} {l : Loop} {spot : Spot}
    (h : w.startLoop r l spot = .ok (w', r')) :
    w' = { w with own := ⟨.loop l, r.lastScope + 1, 0, spot⟩ :: w.own } ∧
      r' = { r with
        lastScope := r.lastScope + 1
        symbols := bindVariable r.symbols w'.frames l } := by
  unfold startLoop at h
  split_ifs at h
  cases hopen : w.openScope r (.loop l) spot with
  | error fault =>
    rw [hopen] at h
    cases h
  | ok result =>
    rw [hopen] at h
    obtain ⟨hw, hr⟩ := eq_of_openScope hopen
    cases h
    exact ⟨hw, by rw [hr]⟩

theorem eq_of_closeBrace {w' : Walk} (h : w.closeBrace = .ok w') :
    ∃ f own, w.own = f :: own ∧ f.isLoop = false ∧ w' = { w with own } := by
  unfold closeBrace at h
  split at h
  · rename_i f own hown
    split_ifs at h with hbrace
    cases h
    refine ⟨f, own, hown, ?_, rfl⟩
    unfold Frame.isBrace at hbrace
    unfold Frame.isLoop
    cases hkind : f.kind <;> simp_all
  · cases h

/-- A loop ends, or goes on after its `FOR` with the next count. -/
theorem eq_of_stepLoop {r r' : Run} {w' : Walk} (h : w.stepLoop r = .ok (w', r')) :
    ∃ f own l, w.own = f :: own ∧ f.kind = .loop l ∧
      ((w' = { w with own } ∧ r' = r) ∨
        ∃ l', l.next? = some l' ∧
          w' = { w with
            own := { f with kind := .loop l', count := f.count + 1 } :: own
            next := l'.resume.index
            resumeColumn := l'.resume.column
            rewound := true } ∧
          r' = { r with symbols := bindVariable r.symbols w'.frames l' }) := by
  unfold stepLoop at h
  split at h
  · cases h
  · rename_i f own hown
    split at h
    · rename_i l hkind
      refine ⟨f, own, l, hown, hkind, ?_⟩
      split at h
      · cases h
        exact Or.inl ⟨rfl, rfl⟩
      · rename_i l' hnext
        cases h
        exact Or.inr ⟨l', hnext, rfl, rfl⟩
    · cases h

theorem eq_of_next? {l l' : Loop} (h : l.next? = some l') : l'.name = l.name ∧ l'.resume = l.resume := by
  obtain ⟨-, heq⟩ := Option.ite_none_left_eq_some.mp h
  cases heq
  exact ⟨rfl, rfl⟩

/-! ### Reports -/

theorem follows_reportAt (w : Walk) (frames : List Frame) (r : Run) (spot : Spot) (fault : Fault) :
    r.Follows frames (w.reportAt r spot fault) := .of_eq rfl rfl rfl rfl rfl rfl

theorem follows_foldl {α : Type} {frames : List Frame} {f : Run → α → Run}
    (hf : ∀ (r : Run) (x : α), r.Follows frames (f r x)) (xs : List α) (r : Run) :
    r.Follows frames (xs.foldl f r) := by
  induction xs generalizing r with
  | nil => exact .refl _ _
  | cons x xs ih => exact (hf r x).trans (ih _)

theorem follows_finish (w : Walk) (frames : List Frame) (r : Run) : r.Follows frames (w.finish r).2 := by
  unfold finish
  refine (follows_foldl (fun r c => ?_) _ _).trans (follows_foldl (fun r f => ?_) _ _)
  · exact w.follows_reportAt frames r _ _
  · split
    · exact w.follows_reportAt frames r _ _
    · exact .refl _ _

end Walk
end Asm6502
