/-
# Statements note places that spell their symbols

While a line is executed its cursor stands on the line of the file that is noted with
every symbol. The lines of a macro are those of its file, and a loop goes on at a
place of its line. So whatever a statement notes about symbols is right in the sense
of `IsSpelled`, whether the statement succeeds or stops.

Key definitions: `Run.IsTraced`, `Walk.IsTraced`, `Ground.Holds`, `Setting.Traces`.
Key theorems: `Deed.traces`, `LineM.traces_statements`.
-/
import Asm6502.Proofs.Symbol.Spelling
import Asm6502.Proofs.Walk.Capture

namespace Asm6502

/-- Whether the lines of a macro stand in a file after its header. -/
def Macro.IsCopied (library : Library) (files : Array Path) (m : Macro) : Prop :=
  IsExcerpt library files m.definedAt.file (m.definedAt.line + 1) (Text.lines m.body)

/-- Whether a place of a buffer is one of its line. -/
def Buffer.Admits (b : Buffer) (spot : Spot) : Prop :=
  ∀ line, b.lines[spot.index]? = some line → (Cursor.ofColumn line spot.column).IsOf line.toList

theorem Buffer.admits_start (b : Buffer) (index : Nat) : b.Admits ⟨index, 0⟩ := by
  intro line _
  rw [Cursor.ofColumn, dropBytes]
  exact Or.inr ⟨[], Cursor.stands_ofText line⟩

/-- What holds of a run whose symbols are noted right. -/
structure Run.IsTraced (library : Library) (r : Run) : Prop where
  symbols : r.symbols.IsTraced library r.files
  macros : ∀ name m, r.macros.get? name = some m → m.IsCopied library r.files
  /-- No file has two numbers. -/
  files : ∀ (i j : Nat) (path : Path), r.files[i]? = some path → r.files[j]? = some path → i = j

/-- What holds of a walk on which symbols are noted right. -/
structure Walk.IsTraced (library : Library) (files : Array Path) (w : Walk) : Prop where
  buffer : IsExcerpt library files w.buffer.file w.buffer.firstLine w.buffer.lines.toList
  capture : ∀ c, w.capture = some c → c.definition.IsCopied library files
  loops : ∀ f ∈ w.own, ∀ l, f.kind = .loop l → w.buffer.Admits l.resume
  entry : w.buffer.Admits ⟨w.next, w.resumeColumn⟩

/-- Where a line is executed: its buffer and the line, and files that the run has had
since. -/
structure Ground where
  buffer : Buffer
  line : String
  files : Array Path

/-- What holds while a line is executed and symbols are noted right. -/
structure Ground.Holds (env : Setting) (g : Ground) (w : Walk) (r : Run) : Prop where
  run : r.IsTraced env.library
  walk : w.IsTraced env.library r.files
  buffer : w.buffer = g.buffer
  line : g.buffer.lines[env.index]? = some g.line
  grows : FilesGrow g.files r.files

/-- The places of a line, unless it holds a text. -/
def Region.onLine (line : List Char) : Region where
  Has := (·.IsOf line)
  Starts := (·.IsOf line)
  further := Cursor.IsOf.reaches
  past h := h.skip 1

/-- What must hold of the buffers and texts that a line brings in. -/
structure Setting.Traces (env : Setting) (line : String) : Prop where
  coherent : env.library.IsCoherent
  answer : ∀ (x : Call) (r : Run), env.answer x = some r → x.run.IsTraced env.library →
    IsExcerpt env.library x.run.files x.buffer.file x.buffer.firstLine x.buffer.lines.toList →
    r.IsTraced env.library ∧ FilesGrow x.run.files r.files
  keepsTo : ∀ on, env.KeepsTo on
  text : holdsText line.toList = true → ∀ text (g : Ground) (s : LineState), g.line = line → g.Holds env s.walk s.run →
    g.Holds env (LineM.stateOf (env.runText text s)).walk (LineM.stateOf (env.runText text s)).run

/-! ### Runs and walks -/

section
variable {library : Library} {r : Run} {w : Walk} {files files' : Array Path}

theorem Run.IsTraced.of_eq {r' : Run} (h : r.IsTraced library) (hsymbols : r'.symbols = r.symbols)
    (hmacros : r'.macros = r.macros) (hfiles : r'.files = r.files) : r'.IsTraced library where
  symbols := by rw [hsymbols, hfiles]; exact h.symbols
  macros := by rw [hmacros, hfiles]; exact h.macros
  files := by rw [hfiles]; exact h.files

theorem Run.IsTraced.addMacro (h : r.IsTraced library) {m : Macro} (hm : m.IsCopied library r.files) :
    ({ r with macros := r.macros.add m } : Run).IsTraced library where
  symbols := h.symbols
  macros name m' hm' := by
    rw [MacroTable.get?_add] at hm'
    split_ifs at hm'
    · exact Option.some.inj hm' ▸ hm
    · exact h.macros name m' hm'
  files := h.files

theorem Path.same_refl (path : Path) : path.same path = true := Path.same_iff.mpr ⟨rfl, rfl⟩

/-- A file that is new has none of the numbers before. -/
theorem Run.IsTraced.addFile (h : r.IsTraced library) (path : Path) : (r.addFile path).2.IsTraced library := by
  have hgrow := r.filesGrow_addFile path
  have heq := r.addFile_eq path
  rw [heq]
  refine ⟨h.symbols.mono hgrow, fun name m hm => (h.macros name m hm).mono hgrow, ?_⟩
  unfold Run.addFile
  cases hindex : r.fileIndex? path with
  | some file => exact h.files
  | none =>
    have hnew (i : Nat) : r.files[i]? ≠ some path := by
      intro hi
      obtain ⟨hlt, hpath⟩ := Array.getElem?_eq_some_iff.mp hi
      have hnot := Array.findIdx?_eq_none_iff.mp hindex path (hpath ▸ Array.getElem_mem hlt)
      rw [path.same_refl] at hnot
      cases hnot
    intro i j other hi hj
    simp only [Array.getElem?_push] at hi hj
    split_ifs at hi hj with hi' hj' hj'
    · omega
    · cases hi
      exact absurd hj (hnew j)
    · cases hj
      exact absurd hi (hnew i)
    · exact h.files i j other hi hj

theorem Walk.IsTraced.mono (h : w.IsTraced library files) (hgrow : FilesGrow files files') :
    w.IsTraced library files' where
  buffer := h.buffer.mono hgrow
  capture c hc := (h.capture c hc).mono hgrow
  loops := h.loops
  entry := h.entry

theorem Walk.IsTraced.changeOwn (h : w.IsTraced library files) {own : List Frame}
    (hown : ∀ f ∈ own, f ∈ w.own ∨ ∀ l, f.kind = .loop l → w.buffer.Admits l.resume) :
    ({ w with own } : Walk).IsTraced library files where
  buffer := h.buffer
  capture := h.capture
  loops f hf := (hown f hf).elim (h.loops f) id
  entry := h.entry

theorem Walk.IsTraced.openFrame (h : w.IsTraced library files) {f : Frame}
    (hf : ∀ l, f.kind = .loop l → w.buffer.Admits l.resume) :
    ({ w with own := f :: w.own } : Walk).IsTraced library files := by
  refine h.changeOwn fun g hg => ?_
  rcases List.mem_cons.mp hg with rfl | hg
  · exact Or.inr hf
  · exact Or.inl hg

/-- A loop goes on where it has begun. -/
theorem Walk.IsTraced.stepLoop {w' : Walk} {r' : Run} (h : w.IsTraced library files)
    (hstep : w.stepLoop r = .ok (w', r')) : w'.IsTraced library files := by
  obtain ⟨f, own, l, hown, hkind, ⟨rfl, -⟩ | ⟨l', hnext, rfl, -⟩⟩ := Walk.eq_of_stepLoop hstep
  · exact h.changeOwn fun g hg => Or.inl (hown ▸ List.mem_cons_of_mem _ hg)
  · have hresume : w.buffer.Admits l'.resume := by
      rw [(Walk.eq_of_next? hnext).2]
      exact h.loops f (hown ▸ List.mem_cons_self) l hkind
    refine ⟨h.buffer, h.capture, fun g hg => ?_, hresume⟩
    rcases List.mem_cons.mp hg with rfl | hg
    · intro l'' hl''
      cases hl''
      exact hresume
    · exact h.loops g (hown ▸ List.mem_cons_of_mem _ hg)

theorem Walk.IsTraced.changeConditionals (h : w.IsTraced library files) (conditionals : List Conditional) :
    ({ w with conditionals } : Walk).IsTraced library files := ⟨h.buffer, h.capture, h.loops, h.entry⟩

theorem Walk.IsTraced.endMacro {w' : Walk} {definition : Option Macro} (h : w.IsTraced library files)
    (hend : w.endMacro = .ok (definition, w')) :
    w'.IsTraced library files ∧ w'.buffer = w.buffer ∧ ∀ m ∈ definition, m.IsCopied library files := by
  unfold Walk.endMacro at hend
  split at hend
  · split_ifs at hend
    cases hend
    refine ⟨⟨h.buffer, (fun c hc => by cases hc), h.loops, h.entry⟩, rfl, fun m hm => ?_⟩
    obtain ⟨c, hc, rfl⟩ := Option.map_eq_some_iff.mp hm
    exact h.capture c hc
  · cases hend

/-- A variable has no place of its own. -/
theorem SymbolTable.IsTraced.bindVariable {t : SymbolTable} (h : t.IsTraced library files) (frames : List Frame)
    (l : Loop) : (Walk.bindVariable t frames l).IsTraced library files := by
  unfold Walk.bindVariable
  dsimp only
  cases hadd : t.add? (fullName l.name frames) (.num l.current) false none with
  | none => exact h.change _ _
  | some u => exact h.add? (fun p hp => by cases hp) hadd

end

/-- A macro has no lines before its header is read. -/
theorem isCopied_header (library : Library) (files : Array Path) (name : String) (p : Position)
    (parameters : List String) : ({ Macro.ofHeader name p with parameters } : Macro).IsCopied library files := by
  intro i text htext
  have hnone : Text.lines "" = [] := by decide
  change (Text.lines "")[i]? = some text at htext
  rw [hnone] at htext
  cases htext

/-- A word that is read as an `ASM` is one. -/
theorem startsText_of_find? {spelling : String} {cs : List Char} (h : Directive.find? cs = some (spelling, .asm))
    (hrest : cs.drop spelling.length ≠ []) : startsText cs = true := by
  have hword : ∀ x ∈ Directive.spellings, x.2 = .asm → x.1 = "ASM" := by decide
  have hspelling : spelling = "ASM" := hword _ (List.mem_of_find?_eq_some h) rfl
  have hspelled : Directive.spelledAt spelling cs = true := by simpa using List.find?_some h
  subst hspelling
  obtain ⟨hstarts, hnext⟩ := Bool.and_eq_true_iff.mp hspelled
  refine Bool.or_eq_true_iff.mpr (Or.inr (Bool.and_eq_true_iff.mpr ⟨hstarts, ?_⟩))
  change cs.drop 3 ≠ [] at hrest
  cases hcs : cs.drop 3 with
  | nil => exact absurd hcs hrest
  | cons x rest =>
    have hlength : "ASM".toList.length = 3 := rfl
    rw [hlength, hcs] at hnext
    simpa using hnext

/-! ### Deeds -/

section
variable {env : Setting} {g : Ground} {w : Walk} {r : Run}

namespace Ground

theorem Holds.changeRun (h : g.Holds env w r) {r' : Run} (hrun : r'.IsTraced env.library)
    (hfiles : FilesGrow r.files r'.files) : g.Holds env w r' :=
  ⟨hrun, h.walk.mono hfiles, h.buffer, h.line, h.grows.trans hfiles⟩

theorem Holds.changeSymbols (h : g.Holds env w r) {symbols : SymbolTable} {history : List Note} {lastScope : Nat}
    (hsymbols : symbols.IsTraced env.library r.files) : g.Holds env w { r with symbols, history, lastScope } :=
  h.changeRun ⟨hsymbols, h.run.macros, h.run.files⟩ (.refl _)

theorem Holds.changeWalk (h : g.Holds env w r) {w' : Walk} (hwalk : w'.IsTraced env.library r.files)
    (hbuffer : w'.buffer = w.buffer) : g.Holds env w' r :=
  ⟨h.run, hwalk, hbuffer.trans h.buffer, h.line, h.grows⟩

/-- The line at hand stands in the file that is noted. -/
theorem Holds.isPart (h : g.Holds env w r) (column : Nat) : IsPart env.library r.files
    (w.buffer.position env.index column).file (w.buffer.position env.index column).line g.line.toList :=
  h.walk.buffer env.index g.line (by rw [Array.getElem?_toList, h.buffer, h.line])

/-- The place of a name on the line is right. -/
theorem Holds.isSpelled (h : g.Holds env w r) {c : Cursor} (hc : c.IsOf g.line.toList) (frames : List Frame) :
    IsSpelled env.library r.files (baseName (fullName c.name.1 frames)) (w.buffer.position env.index c.column) := by
  have hplain : Asm6502.IsPlain c.name.1 := isPlain_take_nameLength c.rest
  rw [baseName_fullName hplain]
  exact (h.isPart c.column).isSpelled hc.spells

/-- A loop may go on at a place of the line. -/
theorem Holds.admits (h : g.Holds env w r) {c : Cursor} (hc : c.IsOf g.line.toList) :
    w.buffer.Admits ⟨env.index, c.column⟩ := by
  intro other hother
  rw [h.buffer] at hother
  cases h.line.symm.trans hother
  rcases hc with hholds | ⟨past, hpast⟩
  · exact Or.inl hholds
  · rw [hpast.ofColumn]
    exact Or.inr ⟨past, hpast⟩

end Ground

/-- Whatever is done on a line, what is noted is right. -/
theorem Deed.traces {may : Doing → Prop} {x y : Walk × Run} (h : Deed env (.onLine g.line.toList) may x y)
    (henv : env.Traces g.line) (hx : g.Holds env x.1 x.2) : g.Holds env y.1 y.2 := by
  have hkept {r' : Run} (hsymbols : r'.symbols = x.2.symbols) (hmacros : r'.macros = x.2.macros)
      (hfiles : r'.files = x.2.files) : g.Holds env x.1 r' :=
    hx.changeRun (hx.run.of_eq hsymbols hmacros hfiles) (hfiles ▸ .refl _)
  cases h with
  | @evaluated s after hplace hleaves =>
    -- whatever an expression looks up is noted where the line spells it
    have hline : IsPart env.library s.run.files (LineM.context env s).file (LineM.context env s).line g.line.toList :=
      hx.isPart 0
    have hkeeps := Expr.keeps_evaluate hline hplace env.allowance.evals (LineM.evaluation s) hx.run.symbols
    have hsymbols : after.symbols.IsTraced env.library s.run.files := by
      obtain ⟨e, he⟩ | ⟨problem, he⟩ := hleaves
      · rw [he] at hkeeps
        exact hkeeps.1
      · rw [he] at hkeeps
        exact hkeeps
    exact hx.changeRun ⟨hsymbols, hx.run.macros, hx.run.files⟩ (.refl _)
  | processor => exact hx.changeSymbols (hx.run.symbols.change _ _)
  | @labelled w r c spelling outer symbols hmay hplace hfind houter hplaces =>
    refine hx.changeSymbols ?_
    rcases hplaces with ⟨-, hadd⟩ | ⟨rfl, -⟩
    · refine hx.run.symbols.add? (fun p hp => ?_) hadd
      cases hp
      exact hx.isSpelled ((hplace.skip _).skip _) outer
    · exact hx.run.symbols
  | @assigned w r c hmay hplace =>
    refine hx.changeSymbols (hx.run.symbols.add fun p hp => ?_)
    cases hp
    exact hx.isSpelled hplace w.frames
  | reassigned => exact hx.changeSymbols (hx.run.symbols.change _ _)
  | @opened w w' r r' kind spot hmay hopen =>
    obtain ⟨rfl, rfl⟩ := Walk.eq_of_openScope hopen
    have hwalk := hx.walk.openFrame (f := ⟨kind, r.lastScope + 1, 0, spot⟩) fun l hl => by
      rcases hmay with ⟨rfl, -⟩ | ⟨rfl, -⟩ <;> cases hl
    exact (hx.changeWalk hwalk rfl).changeSymbols hx.run.symbols
  | closed _ hown =>
    exact hx.changeWalk (hx.walk.changeOwn fun g hg => Or.inl (hown ▸ List.mem_cons_of_mem _ hg)) rfl
  | @looped w w' r r' l spot c hmay hplace hend hname hresume hstart =>
    obtain ⟨rfl, rfl⟩ := Walk.eq_of_startLoop hstart
    have hwalk := hx.walk.openFrame (f := ⟨.loop l, r.lastScope + 1, 0, spot⟩) fun l' hl' => by
      cases hl'
      rw [hresume]
      exact hx.admits hplace
    exact (hx.changeWalk hwalk rfl).changeSymbols (hx.run.symbols.bindVariable _ l)
  | stepped hmay hstep =>
    have hwalk := hx.walk.stepLoop hstep
    obtain ⟨f, own, l, -, -, ⟨rfl, rfl⟩ | ⟨l', -, rfl, rfl⟩⟩ := Walk.eq_of_stepLoop hstep
    · exact hx.changeWalk hwalk rfl
    · exact (hx.changeWalk hwalk rfl).changeSymbols (hx.run.symbols.bindVariable _ l')
  | turned => exact hx.changeWalk (hx.walk.changeConditionals _) rfl
  | begun hmay hdefinition hstart =>
    rw [Walk.frame_of_startMacro hstart]
    refine hx.changeWalk ⟨hx.walk.buffer, fun c hc => ?_, hx.walk.loops, hx.walk.entry⟩ rfl
    obtain ⟨m, hm, rfl⟩ := Option.map_eq_some_iff.mp hc
    obtain ⟨-, name, column, parameters, rfl, -⟩ := hdefinition m hm
    exact isCopied_header _ _ _ _ _
  | @ended w w' r definition hmay hend =>
    obtain ⟨hwalk, hbuffer, hcopied⟩ := hx.walk.endMacro hend
    have hended := hx.changeWalk hwalk hbuffer
    cases definition with
    | none => exact hended
    | some m => exact hended.changeRun (hx.run.addMacro (hcopied m rfl)) (.refl _)
  | referenced hmay name p =>
    refine hx.changeRun ⟨hx.run.symbols, fun other m hm => ?_, hx.run.files⟩ (.refl _)
    rw [MacroTable.get?_addReference] at hm
    exact hx.run.macros other m hm
  | released => exact hx.changeSymbols (hx.run.symbols.erase _)
  | given => exact hx.changeSymbols (hx.run.symbols.add fun _ hp => by cases hp)
  | ran hmay hcall hrun =>
    cases hcall with
    | @intro f name m site start hown hf hroom hm hsite =>
      obtain ⟨hr, hfiles⟩ := henv.answer _ _ hrun hx.run (hx.run.macros name m hm)
      have hwalk := hx.walk.changeOwn fun g hg => Or.inl (hown ▸ List.mem_cons_of_mem _ hg)
      exact (hx.changeWalk hwalk rfl).changeRun hr hfiles
  | @added w r path => exact hx.changeRun (hx.run.addFile path) (r.filesGrow_addFile path)
  | @included w r r' x hmay hcall hrun =>
    cases hcall with
    | @intro path contents includes hincludes htext =>
      obtain ⟨hgrow, hexcerpt⟩ := isExcerpt_addFile henv.coherent r htext
      have hopened : (r.inFile path).IsTraced env.library := (hx.run.addFile path).of_eq rfl rfl rfl
      obtain ⟨hr, hfiles⟩ := henv.answer _ _ hrun hopened hexcerpt
      exact hx.changeRun (hr.of_eq rfl rfl rfl) (hgrow.trans hfiles)
  | @inlined s c spelling text hmay hplace hfind hrest =>
    have hholds : holdsText g.line.toList = true := hplace.holdsText (startsText_of_find? hfind hrest)
    have hbegun : g.Holds env s.inText.walk s.inText.run := hkept rfl rfl rfl
    have htext := henv.text hholds text g s.inText rfl hbegun
    exact htext.changeRun (htext.run.of_eq rfl rfl rfl) (.refl _)
  | _ => exact hkept rfl rfl rfl

/-- **A line notes what it spells.** -/
theorem LineM.traces_statements {s : LineState} (henv : env.Traces g.line) (hs : g.Holds env s.walk s.run)
    (hcursor : s.cursor.IsOf g.line.toList) :
    wp statements env s (fun _ t => g.Holds env t.walk t.run) fun _ t => g.Holds env t.walk t.run := by
  have hdeeds {t : LineState} (h : s.Deeds env (.onLine g.line.toList) Doing.Any t) : g.Holds env t.walk t.run :=
    h.keeps (fun _ _ hdeed hx => hdeed.traces henv hx) hs
  have hacts : Acts env (.onLine g.line.toList) Doing.Any statements s :=
    acts_statements (henv.keepsTo _) (fun _ h => h) hcursor
  exact wp_mono hacts (fun _ _ ht => hdeeds ht.2) fun _ _ ht => hdeeds ht.deeds

end
end Asm6502
