/-
# Renaming a symbol edits the symbol

What a line notes about symbols is right, and so is what a walk, a pass and a whole
run note: macros are captured line by line, so that their lines keep their numbers in
the file. So the places that are to be edited when a symbol is renamed spell it, each
of them once.

A line that spells `EVAL(` or the directive `ASM` is left out, because what stands in
its texts is noted at columns of the text.

Key theorems: `Walk.traces_stepLine`, `traces_walk`, `isTraced_of_assembled`,
`rename_locations_spell_the_symbol`.
-/
import Mathlib.Data.List.Nodup
import Asm6502.Assembly.Query
import Asm6502.Proofs.Symbol.Tracing

namespace Asm6502

variable {library : Library}

/-! ### The setting of a line -/

theorem Setting.traces_lineSetting {runBuffer : BufferRunner} {includes index : Nat} (hlibrary : library.IsCoherent)
    (hrunner : ∀ allowance (buffer : Buffer) frames (r r' : Run), runBuffer allowance buffer frames r = some r' →
      r.IsTraced library → IsExcerpt library r.files buffer.file buffer.firstLine buffer.lines.toList →
      r'.IsTraced library ∧ FilesGrow r.files r'.files) (line : String) (evals : Nat) :
    (lineSetting library runBuffer includes index evals).Traces line := by
  have hanswer (x : Call) (r : Run) (hrun : runBuffer x.allowance x.buffer x.frames x.run = some r) :=
    hrunner _ _ _ _ _ hrun
  have hkeeps (evals : Nat) (on : Region) : (lineSetting library runBuffer includes index evals).KeepsTo on :=
    fun _ _ _ _ hrun hs => cursor_runText hrun ▸ hs
  induction evals with
  | zero => exact ⟨hlibrary, hanswer, hkeeps 0, fun _ _ _ _ _ hs => hs⟩
  | succ evals ih =>
    refine ⟨hlibrary, hanswer, hkeeps _, fun hholds text g s hline hs => ?_⟩
    subst hline
    -- the line holds a text, so that any place is right
    have htraces := LineM.traces_statements (s := ⟨.ofText text, #[], #[], s.walk, s.run⟩) ih
      ⟨hs.run, hs.walk, hs.buffer, hs.line, hs.grows⟩ (Or.inl hholds)
    have htext := LineM.wp_stateOf (P := fun t => g.Holds (lineSetting library runBuffer includes index evals) t.walk t.run)
      (wp_runText (fun w r => g.Holds (lineSetting library runBuffer includes index evals) w r)
        (fun _ w r => g.Holds (lineSetting library runBuffer includes index evals) w r) htraces)
    exact ⟨htext.run, htext.walk, htext.buffer, htext.line, htext.grows⟩

/-! ### Walks -/

/-- What has been captured stands in the file of the buffer. -/
theorem Capture.Holds.isCopied {files : Array Path} {b : Buffer} {index : Nat} {c : Capture} (h : c.Holds b index)
    (hb : IsExcerpt library files b.file b.firstLine b.lines.toList) : c.definition.IsCopied library files := by
  unfold Macro.IsCopied
  rw [h.file, h.line, h.body, Nat.add_assoc]
  exact (hb.part (c.startIndex + 1) _).unlines

namespace Walk

variable {bound : Nat} {a : Allowance} {w v : Walk} {r q : Run} {line : String}

theorem isTraced_start {files : Array Path} {b : Buffer} {frames : List Frame}
    (hb : IsExcerpt library files b.file b.firstLine b.lines.toList) : (start b frames).IsTraced library files where
  buffer := hb
  capture _ hc := by cases hc
  loops _ hf := by cases hf
  entry := b.admits_start 0

/-- A line leaves the walk at a place of its next one, and has been captured if
anything is. -/
theorem isTraced_leave {env : Setting} {g : Ground} {t : LineState} (ht : g.Holds env t.walk t.run) (record : Bool)
    (problem : Option Problem) (hrecords : (t.walk.captureLine env.index line).IsRecording) :
    (leave env.index line record problem t).1.IsTraced env.library (leave env.index line record problem t).2.files ∧
      (leave env.index line record problem t).2.IsTraced env.library ∧
      FilesGrow g.files (leave env.index line record problem t).2.files := by
  have hrun : (leave env.index line record problem t).2.symbols = t.run.symbols ∧
      (leave env.index line record problem t).2.macros = t.run.macros ∧
      (leave env.index line record problem t).2.files = t.run.files := by
    unfold leave
    cases problem <;> cases record <;> exact ⟨rfl, rfl, rfl⟩
  obtain ⟨capture, hcapture⟩ := t.walk.captureLine_eq env.index line
  have hwalk : (leave env.index line record problem t).1 = t.walk.captureLine env.index line := rfl
  refine ⟨?_, ht.run.of_eq hrun.1 hrun.2.1 hrun.2.2, hrun.2.2 ▸ ht.grows⟩
  rw [hwalk, hrun.2.2]
  refine ⟨?_, fun c hc => (hrecords.capture c hc).2.1.isCopied ?_, ?_, ?_⟩
  all_goals rw [hcapture]
  · exact ht.walk.buffer
  · exact ht.walk.buffer
  · exact ht.walk.loops
  · exact ht.walk.entry

/-- **A line of a walk notes what it spells.** -/
theorem traces_stepLine (hlibrary : library.IsCoherent)
    (hrunner : ∀ allowance (buffer : Buffer) frames (r r' : Run),
      runBufferWithin library bound allowance buffer frames r = some r' →
      r.IsTraced library → IsExcerpt library r.files buffer.file buffer.firstLine buffer.lines.toList →
      r'.IsTraced library ∧ FilesGrow r.files r'.files)
    (hw : w.IsTraced library r.files) (hrecording : w.IsRecording) (hr : r.IsTraced library)
    (hline : w.buffer.lines[w.next]? = some line)
    (hstep : w.stepLine library (runBufferWithin library bound) a r line = some (v, q)) :
    v.IsTraced library q.files ∧ q.IsTraced library ∧ FilesGrow r.files q.files := by
  have henv : (lineSetting library (runBufferWithin library bound) a.includes w.next a.evals).Traces line :=
    Setting.traces_lineSetting hlibrary hrunner line a.evals
  have hbegin : Ground.Holds (lineSetting library (runBufferWithin library bound) a.includes w.next a.evals)
      ⟨w.buffer, line, r.files⟩ (w.entering r line).walk r :=
    ⟨hr, ⟨hw.buffer, hw.capture, hw.loops, w.buffer.admits_start _⟩, rfl, hline, .refl _⟩
  have htraces := LineM.traces_statements henv hbegin (hw.entry line hline)
  have hrecords := isRecording_stepLine hrecording hline hstep
  obtain ⟨problem, hleave⟩ := exists_leave hstep
  obtain ⟨rfl, rfl⟩ := Prod.mk.inj hleave
  exact isTraced_leave (LineM.wp_stateOf (P := fun t => Ground.Holds _ _ t.walk t.run) htraces) (w.recordsTree r) problem
    hrecords

theorem isTraced_finish (w : Walk) (hr : r.IsTraced library) :
    (w.finish r).2.IsTraced library ∧ FilesGrow r.files (w.finish r).2.files := by
  have hfold {α : Type} {f : Run → α → Run}
      (hf : ∀ (q : Run) (x : α), q.IsTraced library ∧ FilesGrow r.files q.files →
        (f q x).IsTraced library ∧ FilesGrow r.files (f q x).files) (xs : List α) (q : Run)
      (hq : q.IsTraced library ∧ FilesGrow r.files q.files) :
      (xs.foldl f q).IsTraced library ∧ FilesGrow r.files (xs.foldl f q).files := by
    induction xs generalizing q with
    | nil => exact hq
    | cons x xs ih => exact ih _ (hf q x hq)
  -- a report says nothing about symbols, macros or files
  refine hfold (fun q f hq => ?_) _ _ (hfold (fun q c hq => ?_) _ r ⟨hr, .refl _⟩)
  · split
    · exact ⟨hq.1.of_eq rfl rfl rfl, hq.2⟩
    · exact hq
  · exact ⟨hq.1.of_eq rfl rfl rfl, hq.2⟩

end Walk

/-- **A walk notes what its lines spell.** -/
theorem traces_walk (hlibrary : library.IsCoherent) : ∀ (bound : Nat) (a : Allowance) (w v : Walk) (r q : Run),
    walk library bound a w r = some (v, q) → w.IsTraced library r.files → w.IsRecording → r.IsTraced library →
    q.IsTraced library ∧ FilesGrow r.files q.files
  | 0, _, _, _, _, _, h, _, _, _ => by cases h
  | bound + 1, a, w, v, r, q, h, hw, hrecording, hr => by
    unfold walk at h
    split at h
    · cases h
      exact w.isTraced_finish hr
    · rename_i line hline
      split_ifs at h
      · cases h
        exact ⟨hr, .refl _⟩
      · dsimp only at h
        split at h
        · cases h
        · rename_i w₁ r₁ hstep
          have hrunner (allowance : Allowance) (buffer : Buffer) (frames : List Frame) (r r' : Run)
              (hrun : runBufferWithin library bound allowance buffer frames r = some r') (hr : r.IsTraced library)
              (hbuffer : IsExcerpt library r.files buffer.file buffer.firstLine buffer.lines.toList) :
              r'.IsTraced library ∧ FilesGrow r.files r'.files := by
            obtain ⟨⟨w', r''⟩, hwalk, rfl⟩ := Option.map_eq_some_iff.mp hrun
            exact traces_walk hlibrary bound allowance _ _ _ _ hwalk (Walk.isTraced_start hbuffer)
              (Walk.isRecording_start buffer frames) hr
          obtain ⟨hw₁, hr₁, hgrow⟩ := Walk.traces_stepLine hlibrary hrunner hw hrecording hr hline hstep
          obtain ⟨hq, hgrow'⟩ := traces_walk hlibrary bound a w₁ v r₁ q h hw₁
            (Walk.isRecording_stepLine hrecording hline hstep) hr₁
          exact ⟨hq, hgrow.trans hgrow'⟩

/-! ### Passes -/

theorem SymbolTable.isTraced_predefined (library : Library) (files : Array Path) :
    predefined.IsTraced library files := by
  have hempty : empty.IsTraced library files := fun full symbol h => by cases h
  have hnone {full : String} : ∀ p, (none : Option Position) = some p → IsSpelled library files (baseName full) p :=
    fun _ hp => by cases hp
  exact ((((hempty.add hnone).add hnone).add hnone).add hnone).add hnone

theorem SymbolTable.IsTraced.initialSymbols (library : Library) (files : Array Path) (defines : List (String × Float)) :
    (Run.initialSymbols defines).IsTraced library files := by
  have hfold (t : SymbolTable) (ht : t.IsTraced library files) :
      (defines.foldl (fun t define => t.add define.1 (.num define.2) false none) t).IsTraced library files := by
    induction defines generalizing t with
    | nil => exact ht
    | cons define defines ih => exact ih _ (ht.add fun _ hp => by cases hp)
  exact hfold _ (isTraced_predefined library files)

theorem Run.isTraced_start (library : Library) (options : Options) (clock : Int) (ticket : Ticket) (generation : Nat) :
    (Run.start options clock ticket generation).IsTraced library where
  symbols := .initialSymbols library _ options.defines
  macros name m hm := by cases hm
  files i j path hi := by simp [Run.start] at hi

theorem traces_runPass (hlibrary : library.IsCoherent) {bound file : Nat} {text : String} {pass : Pass} {r q : Run}
    (hrun : runPass library bound file text pass r = some q) (hr : r.IsTraced library)
    (htext : IsExcerpt library r.files file 0 (Text.lines text)) :
    q.IsTraced library ∧ FilesGrow r.files q.files := by
  obtain ⟨⟨w, q'⟩, hwalk, rfl⟩ := Option.map_eq_some_iff.mp hrun
  have hbegin : (r.beginPass pass).IsTraced library := ⟨hr.symbols.change _ _, hr.macros, hr.files⟩
  have hstart : (Walk.start (.ofText file text 0 none) []).IsTraced library (r.beginPass pass).files :=
    Walk.isTraced_start htext
  have hwalked := traces_walk hlibrary bound _ _ _ _ _ hwalk hstart (Walk.isRecording_start _ _) hbegin
  exact ⟨hwalked.1, hwalked.2⟩

theorem traces_runPasses (hlibrary : library.IsCoherent) {bound file : Nat} {text : String} {r : Run} {a : Assembly}
    (hresult : (runPasses library bound file text r).result = .ok a) (hr : r.IsTraced library)
    (htext : IsExcerpt library r.files file 0 (Text.lines text)) : a.run.IsTraced library := by
  unfold runPasses at hresult
  split at hresult
  · cases hresult
  · rename_i r₁ hfirst
    obtain ⟨hr₁, hgrow⟩ := traces_runPass hlibrary hfirst hr htext
    split_ifs at hresult
    split at hresult
    · cases hresult
    · rename_i r₂ hsecond
      split_ifs at hresult
      cases hresult
      exact (traces_runPass hlibrary hsecond hr₁ (htext.mono hgrow)).1

theorem isTraced_of_assembled (hlibrary : library.IsCoherent) {bound : Nat} {path : Path} {options : Options}
    {clock : Int} {ticket : Ticket} {generation : Nat} {a : Assembly}
    (hresult : (assembleWithin bound library path options clock ticket generation).result = .ok a) :
    a.run.IsTraced library := by
  unfold assembleWithin at hresult
  dsimp only at hresult
  split at hresult
  · cases hresult
  · rename_i text htext
    obtain ⟨-, hexcerpt⟩ := isExcerpt_addFile hlibrary
      ((Run.start options clock ticket generation).noteRead (library.interruptions · path)) htext
    have hstart : ((Run.start options clock ticket generation).noteRead (library.interruptions · path)).IsTraced
        library := (Run.isTraced_start library options clock ticket generation).of_eq rfl rfl rfl
    exact traces_runPasses hlibrary hresult (hstart.addFile path) hexcerpt

/-! ### Locations -/

/-- A place that is noted right is a place in the text of its file. -/
theorem IsSpelled.exists_location {a : Assembly} {name : String} {p : Position}
    (h : IsSpelled library a.run.files name p) : ∃ l text line, a.locate p = some l ∧
      library.readText l.path = .ok text ∧ (Text.lines text)[l.line]? = some line ∧
      (Spells line.toList name l.column ∨ holdsText line.toList = true) := by
  obtain ⟨whole, ⟨path, text, hpath, htext, hwhole⟩, hspells⟩ := h
  obtain ⟨line, hline, rfl⟩ := Option.map_eq_some_iff.mp hwhole
  refine ⟨⟨path, p.line, p.column⟩, text, line, ?_, htext, hline, hspells⟩
  unfold Assembly.locate Run.filePath?
  rw [hpath]
  rfl

/-- Two places have the same location only if they are the same. -/
theorem Assembly.locate_injective {a : Assembly} (ha : a.run.IsTraced library) {p q : Position} {l : Location}
    (hp : a.locate p = some l) (hq : a.locate q = some l) : p = q := by
  obtain ⟨path, hpath, rfl⟩ := Option.map_eq_some_iff.mp hp
  obtain ⟨path', hpath', hsame⟩ := Option.map_eq_some_iff.mp hq
  obtain ⟨rfl, hline, hcolumn⟩ := Location.mk.inj hsame
  obtain ⟨file, line, column⟩ := p
  obtain ⟨file', line', column'⟩ := q
  obtain rfl : file = file' := ha.files _ _ _ hpath hpath'
  cases hline
  cases hcolumn
  rfl

theorem Assembly.exists_mem_of_renameLocations {a : Assembly} {name : String} {l : Location}
    (hl : l ∈ a.renameLocations name) : ∃ symbol p, a.run.symbols.get? name = some symbol ∧
      (symbol.definedAt = some p ∨ p ∈ symbol.references) ∧ a.locate p = some l := by
  obtain ⟨p, hp, hlocate⟩ := List.mem_filterMap.mp hl
  unfold SymbolTable.renameLocations at hp
  cases hsymbol : a.run.symbols.get? name with
  | none =>
    rw [hsymbol] at hp
    cases hp
  | some symbol =>
    rw [hsymbol] at hp
    refine ⟨symbol, p, rfl, ?_, hlocate⟩
    exact (List.mem_append.mp hp).imp_left Option.mem_toList.mp

/-- **Renaming a symbol edits the symbol.** Take any assembly, and any name. Each
location that is to be edited when the symbol of that name is renamed is a line of the
text of a file that spells the symbol without its scopes at that byte, unless the line
spells `EVAL(` or an `ASM` with something behind it. Every use of the symbol has a
location, and no two uses have the same one. -/
theorem rename_locations_spell_the_symbol {bound : Nat} {path : Path} {options : Options} {clock : Int}
    {ticket : Ticket} {generation : Nat} {a : Assembly} (hlibrary : library.IsCoherent)
    (hresult : (assembleWithin bound library path options clock ticket generation).result = .ok a) (name : String) :
    (∀ l ∈ a.renameLocations name, ∃ text line, library.readText l.path = .ok text ∧
      (Text.lines text)[l.line]? = some line ∧
      (Spells line.toList (baseName name) l.column ∨ holdsText line.toList = true)) ∧
    ∀ symbol, a.run.symbols.get? name = some symbol →
      none ∉ symbol.references.map a.locate ∧ (symbol.references.map a.locate).Nodup := by
  have ha := isTraced_of_assembled hlibrary hresult
  refine ⟨fun l hl => ?_, fun symbol hsymbol => ?_⟩
  · obtain ⟨symbol, p, hsymbol, hp, hlocate⟩ := a.exists_mem_of_renameLocations hl
    have hsymbols := ha.symbols name symbol hsymbol
    obtain ⟨l', text, line, hlocate', htext, hline, hspells⟩ :=
      (hp.elim (hsymbols.definedAt p) (hsymbols.references p)).exists_location
    cases hlocate.symm.trans hlocate'
    exact ⟨text, line, htext, hline, hspells⟩
  · have hsymbols := ha.symbols name symbol hsymbol
    have hlocated (p : Position) (hp : p ∈ symbol.references) : ∃ l, a.locate p = some l := by
      obtain ⟨l, -, -, hl, -⟩ := (hsymbols.references p hp).exists_location
      exact ⟨l, hl⟩
    refine ⟨fun hnone => ?_, ?_⟩
    · obtain ⟨p, hp, hlocate⟩ := List.mem_map.mp hnone
      obtain ⟨l, hl⟩ := hlocated p hp
      rw [hl] at hlocate
      cases hlocate
    · refine List.Nodup.map_on (fun p hp q hq hsame => ?_) hsymbols.nodup
      obtain ⟨l, hl⟩ := hlocated p hp
      exact Assembly.locate_injective ha hl (hsame ▸ hl)

/-- A symbol that is used on a line of a macro, in its calls and before its definition. -/
def renameSample : Library :=
  .ofFiles [(⟨"main"⟩, "MACRO put n\n EQUB n+base\nENDMACRO\nput 1\nput base\nbase = 3".toUTF8)]

/-- The line of the macro is read twice and noted once. -/
theorem rename_locations_spell_the_symbol_macro :
    ∃ a, (assembleWithin 10 renameSample ⟨"main"⟩ ⟨[], 0, none⟩ 0 .never 0).result = .ok a ∧
      a.renameLocations "base" = [⟨⟨"main"⟩, 5, 0⟩, ⟨⟨"main"⟩, 1, 8⟩, ⟨⟨"main"⟩, 4, 4⟩] ∧
      (∀ l ∈ a.renameLocations "base", ∃ text line, renameSample.readText l.path = .ok text ∧
        (Text.lines text)[l.line]? = some line ∧
        (Spells line.toList (baseName "base") l.column ∨ holdsText line.toList = true)) ∧
      ∀ symbol, a.run.symbols.get? "base" = some symbol →
        none ∉ symbol.references.map a.locate ∧ (symbol.references.map a.locate).Nodup := by
  have hlocations : (assembleWithin 10 renameSample ⟨"main"⟩ ⟨[], 0, none⟩ 0 .never 0).result.toOption.map
      (·.renameLocations "base") = some [⟨⟨"main"⟩, 5, 0⟩, ⟨⟨"main"⟩, 1, 8⟩, ⟨⟨"main"⟩, 4, 4⟩] := by decide +kernel
  cases hresult : (assembleWithin 10 renameSample ⟨"main"⟩ ⟨[], 0, none⟩ 0 .never 0).result with
  | error e =>
    rw [hresult] at hlocations
    cases hlocations
  | ok a =>
    rw [hresult] at hlocations
    exact ⟨a, rfl, Option.some.inj hlocations,
      rename_locations_spell_the_symbol (Library.isCoherent_ofFiles _) hresult "base"⟩

/-- A symbol that is used in the text of an `EVAL`. -/
def quotedUseSample : Library := .ofFiles [(⟨"main"⟩, "foo = 1\nv = EVAL(\"foo\")".toUTF8)]

/-- A use in a text is noted at the column of the text. There the line spells another
symbol. -/
theorem rename_location_in_a_text :
    ∃ a text, (assembleWithin 10 quotedUseSample ⟨"main"⟩ ⟨[], 0, none⟩ 0 .never 0).result = .ok a ∧
      ⟨⟨"main"⟩, 1, 0⟩ ∈ a.renameLocations "foo" ∧ quotedUseSample.readText ⟨"main"⟩ = .ok text ∧
      (Text.lines text)[1]? = some "v = EVAL(\"foo\")" ∧ ¬ Spells "v = EVAL(\"foo\")".toList (baseName "foo") 0 := by
  have hlocations : (assembleWithin 10 quotedUseSample ⟨"main"⟩ ⟨[], 0, none⟩ 0 .never 0).result.toOption.map
      (·.renameLocations "foo") = some [⟨⟨"main"⟩, 0, 0⟩, ⟨⟨"main"⟩, 1, 0⟩] := by decide +kernel
  have htext : quotedUseSample.readText ⟨"main"⟩ = .ok "foo = 1\nv = EVAL(\"foo\")" := by decide +kernel
  cases hresult : (assembleWithin 10 quotedUseSample ⟨"main"⟩ ⟨[], 0, none⟩ 0 .never 0).result with
  | error e =>
    rw [hresult] at hlocations
    cases hlocations
  | ok a =>
    rw [hresult] at hlocations
    have hrename : a.renameLocations "foo" = _ := Option.some.inj hlocations
    refine ⟨a, _, rfl, by simp [hrename], htext, by decide +kernel, ?_⟩
    rintro ⟨past, rest, hline, hcolumn⟩
    cases past with
    | nil => cases hline
    | cons x past =>
      have hpos := x.utf8Size_pos
      rw [byteLength] at hcolumn
      omega

end Asm6502
