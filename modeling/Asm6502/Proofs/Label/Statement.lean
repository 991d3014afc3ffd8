/-
# Statements keep what holds of labels

`Site.Holds` puts together what holds of the run and of the walk while a line is
executed. Each deed that changes a name has its reason to keep it: a label stands
behind a mark and an assignment does not, a loop and a macro call write in a scope that
is new, `CPU` is no label, and what brings in other lines brings in lines of a file.
Conditionals and macro definitions define nothing, but decide which lines are executed
and which text a macro has. Of what the text of an `ASM` does nothing is said, only that
notes and files are added.

A statement does deeds of one kind, and it ends where the next one may start.

Key definitions: `Run.Grows`, `Site.Holds`, `Setting.IsSound`, `Region.ofLine`,
`Site.Keeps`, `LineState.IsReady`, `LineState.IsLeft`.
Key theorems: `Run.isPassage_grows`, `Deed.keeps`, `LineM.between_statement`,
`LineM.sound_statement`, `LineM.sound_statements`.
-/
import Asm6502.Proofs.Walk.Passage

namespace Asm6502

/-- Notes and files are only ever added. -/
structure Run.Grows (r r' : Run) : Prop where
  history : r.history <:+ r'.history
  files : FilesGrow r.files r'.files

namespace Run

theorem Grows.refl (r : Run) : r.Grows r := ⟨List.suffix_refl _, .refl _⟩

theorem Grows.trans {r r' r'' : Run} (h : r.Grows r') (h' : r'.Grows r'') : r.Grows r'' :=
  ⟨h.history.trans h'.history, h.files.trans h'.files⟩

theorem Follows.grows {frames : List Frame} {r r' : Run} (h : r.Follows frames r') : r.Grows r' := by
  obtain ⟨notes, hhistory, -⟩ := h.history
  refine ⟨⟨notes, hhistory.symm⟩, ?_⟩
  rw [h.files]
  exact .refl _

end Run

/-- What is fixed while a line is executed: the pass, the line, and the scopes
that were open when the walk began. -/
structure Site where
  pass : Pass
  line : String
  inherited : List Frame

/-- What holds of a walk and a run while a line is executed. -/
structure Site.Holds (env : Setting) (site : Site) (w : Walk) (r : Run) : Prop where
  run : r.IsSound env.library site.pass w.frames
  walk : w.IsSound env.library r.files env.index
  inherited : w.inherited = site.inherited
  line : w.buffer.lines[env.index]? = some site.line
  /-- The walk goes on with the next line unless a loop has moved it back. -/
  moved : (w.next = env.index + 1 ∧ w.resumeColumn = 0) ∨
    (w.capture = none ∧ w.rewound = true ∧ w.buffer.IsEntry ⟨w.next, w.resumeColumn⟩)

/-- What must hold of how other lines are run. -/
def IsSoundRunner (library : Library) (pass : Pass)
    (runBuffer : Allowance → Buffer → List Frame → Run → Option Run) : Prop :=
  ∀ allowance buffer frames r r', runBuffer allowance buffer frames r = some r' → r.IsSound library pass frames →
    IsExcerpt library r.files buffer.file buffer.firstLine buffer.lines.toList →
    .inlined ∈ r'.history ∨ r'.IsSound library pass frames

/-- What must hold of the buffers and texts that a line brings in. -/
structure Setting.IsSound (env : Setting) (pass : Pass) : Prop where
  coherent : env.library.IsCoherent
  runBuffer : IsSoundRunner env.library pass env.runBuffer
  grows : env.Relates Run.Grows
  runText : ∀ text s node t, env.runText text s = .ok node t → t.cursor = s.cursor

section
variable {env : Setting} {site : Site} {w w' : Walk} {r r' : Run} {s t : LineState}

namespace Site

theorem Holds.changeRun (h : site.Holds env w r) (hrun : r'.IsSound env.library site.pass w.frames)
    (hfiles : FilesGrow r.files r'.files) : site.Holds env w r' :=
  ⟨hrun, h.walk.mono hfiles, h.inherited, h.line, h.moved⟩

theorem Holds.openScope (h : site.Holds env w r) (kind : FrameKind) (spot : Spot)
    (hkind : ∀ l, kind = .loop l → IsPlain l.name ∧ w.buffer.IsEntry l.resume) :
    site.Holds env { w with own := ⟨kind, r.lastScope + 1, 0, spot⟩ :: w.own } { r with lastScope := r.lastScope + 1 } where
  run := (h.run.openScope kind spot).1
  walk := h.walk.changeOwn _ fun f hf => by
    rcases List.mem_cons.mp hf with rfl | hf
    · exact Or.inr hkind
    · exact Or.inl hf
  inherited := h.inherited
  line := h.line
  moved := h.moved

theorem Holds.closeScope (h : site.Holds env w r) {f : Frame} {own : List Frame} (hown : w.own = f :: own) :
    site.Holds env { w with own } r where
  run := by
    refine h.run.outward ⟨[f], ?_⟩
    simp only [Walk.frames, hown, List.cons_append, List.nil_append]
  walk := h.walk.changeOwn _ fun g hg => Or.inl (hown ▸ List.mem_cons_of_mem _ hg)
  inherited := h.inherited
  line := h.line
  moved := h.moved

theorem Holds.startLoop (h : site.Holds env w r) {l : Loop} {spot : Spot} (hname : IsPlain l.name)
    (hresume : w.buffer.IsEntry l.resume) (hstart : w.startLoop r l spot = .ok (w', r')) : site.Holds env w' r' := by
  obtain ⟨rfl, rfl⟩ := Walk.eq_of_startLoop hstart
  have hopen := h.openScope (.loop l) spot fun l' hl' => by
    cases hl'
    exact ⟨hname, hresume⟩
  exact hopen.changeRun (hopen.run.bindVariable (h.run.openScope (.loop l) spot).2 hname) (.refl _)

/-- A loop goes back only where nothing is captured. -/
theorem Holds.stepLoop (h : site.Holds env w r) (hlive : w.isLive = true)
    (hstep : w.stepLoop r = .ok (w', r')) : site.Holds env w' r' := by
  obtain ⟨f, own, l, hown, hkind, ⟨rfl, rfl⟩ | ⟨l', hnext, rfl, rfl⟩⟩ := Walk.eq_of_stepLoop hstep
  · exact h.closeScope hown
  · obtain ⟨hname, hresume⟩ := h.walk.loops f (hown ▸ List.mem_cons_self) l hkind
    obtain ⟨hname', hresume'⟩ := Walk.eq_of_next? hnext
    rw [← hname'] at hname
    rw [← hresume'] at hresume
    have hrun := h.run
    rw [Walk.frames, hown] at hrun
    obtain ⟨hiterate, hnew⟩ := hrun.iterate (.loop l')
    have hwalk := h.walk.changeOwn ({ f with kind := .loop l', count := f.count + 1 } :: own)
      fun g hg => by
        rcases List.mem_cons.mp hg with rfl | hg
        · refine Or.inr fun l'' hl'' => ?_
          cases hl''
          exact ⟨hname, hresume⟩
        · exact Or.inl (hown ▸ List.mem_cons_of_mem _ hg)
    exact
      { run := hiterate.bindVariable hnew hname
        walk := ⟨hwalk.buffer, hwalk.skipped, hwalk.loops, hwalk.capture⟩
        inherited := h.inherited
        line := h.line
        moved := Or.inr ⟨h.walk.capture_eq_none hlive, rfl, hresume⟩ }

theorem Holds.startMacro (h : site.Holds env w r) (hrewound : w.rewound = false) {m : Option Macro}
    {column : Nat} (hstart : w.startMacro m ⟨env.index, column⟩ = .ok w')
    (hm : ∀ definition ∈ m, (⟨definition, env.index⟩ : Capture).IsSound w.buffer env.index) :
    site.Holds env w' r ∧ ∃ conditionals capture, w' = { w with conditionals, capture } := by
  obtain ⟨conditionals, capture, rfl, hwalk⟩ := h.walk.startMacro hstart hm
  have hmoved := h.moved.resolve_right fun hmoved => by
    rw [hrewound] at hmoved
    cases hmoved.2.1
  exact ⟨⟨h.run, hwalk, h.inherited, h.line, Or.inl hmoved⟩, conditionals, capture, rfl⟩

theorem Holds.endMacro (h : site.Holds env w r) {m : Option Macro} (hend : w.endMacro = .ok (m, w')) :
    site.Holds env w' r ∧ ∀ definition ∈ m, definition.IsFaithful env.library r.files := by
  obtain ⟨hm, conditionals, rfl, hwalk⟩ := h.walk.endMacro hend
  exact ⟨⟨h.run, hwalk, h.inherited, h.line, h.moved.imp_right fun hmoved => ⟨rfl, hmoved.2⟩⟩, hm⟩

/-- A loop may go on where a statement may start. -/
theorem Holds.isEntry {c : Cursor} (h : site.Holds env w r) (hc : c.Between site.line.toList) :
    w.buffer.IsEntry ⟨env.index, c.column⟩ := by
  intro line hline
  cases h.line.symm.trans hline
  obtain ⟨past, hstands, hpast⟩ := hc
  rw [hstands.ofColumn]
  exact ⟨past, hstands, hpast⟩

theorem Holds.isPlace {marked : Bool} {c : Cursor} (h : site.Holds env w r) (hc : c.Behind site.line.toList marked) :
    IsPlace env.library r.files marked (w.buffer.position env.index c.column) := by
  obtain ⟨past, hstands, rfl⟩ := hc
  exact h.walk.buffer.isPlace (by rw [Array.getElem?_toList, h.line]) hstands

end Site

/-! ### Places -/

/-- The places of a line. Where a statement starts with a name it is not behind a mark. -/
def Region.ofLine (line : List Char) : Region where
  Has c := ∃ past, c.Stands line past
  Starts c := (∃ past, c.Stands line past) ∧ (c.atName = true → c.Behind line false)
  further h hreaches := h.elim fun _ hstands => hreaches.stands hstands
  past h := h.1.elim fun _ hstands => ⟨_, hstands.skip 1⟩

namespace LineM

theorem behind_promotion {line : List Char} {c : Cursor} (h : c.Behind line true) :
    (c.skip (Promotion.ofMark c.peek).mark.length).Behind line true := by
  obtain ⟨past, hstands, hpast⟩ := h
  unfold Promotion.ofMark
  split
  · rename_i hpeek
    obtain ⟨rest, hrest⟩ := List.head?_eq_some_iff.mp hpeek
    refine ⟨_, hstands.skip 1, ?_⟩
    rw [hrest]
    exact isMarked_append (List.cons_ne_nil _ _)
  · rename_i hpeek
    obtain ⟨rest, hrest⟩ := List.head?_eq_some_iff.mp hpeek
    refine ⟨_, hstands.skip 1, ?_⟩
    rw [hrest]
    exact isMarked_append (List.cons_ne_nil _ _)
  · exact ⟨past, hstands, hpast⟩

/-- After its spelling a directive is behind a mark only if it is a label. -/
theorem behind_spelling {line past : List Char} {c : Cursor} {spelling : String} {d : Directive}
    (h : c.Stands line past) (hfind : Directive.find? c.rest = some (spelling, d)) :
    (c.skip spelling.length).Behind line (d == .label) := by
  have hlabel : ∀ p ∈ Directive.spellings, isMarked p.1.toList = (p.2 == .label) ∧ p.1.toList ≠ [] := by
    decide
  obtain ⟨hmarked, hne⟩ := hlabel _ (List.mem_of_find?_eq_some hfind)
  have hspelled := List.find?_some hfind
  simp only [Directive.spelledAt, startsWith, Bool.and_eq_true, beq_iff_eq] at hspelled
  have htake : (c.rest.take spelling.length).map Char.toUpper = spelling.toList := by
    rw [← String.length_toList]
    exact hspelled.1
  refine ⟨_, h.skip _, ?_⟩
  rw [isMarked_append, ← isMarked_map_toUpper, htake, hmarked]
  rintro hnil
  rw [hnil] at htake
  exact hne htake.symm

end LineM

/-! ### Labels -/

theorem isSound_placeFirst {library : Library} {pass : Pass} {frames outer : List Frame} {r : Run}
    {name : String} {p : Position} {symbols : SymbolTable} {pc : Nat}
    (h : r.IsSound library pass frames) (hfirst : r.pass = .first)
    (hadd : r.symbols.add? (fullName name outer) (.ofNat pc) true (some p) = some symbols)
    (hp : IsPlace library r.files true p) (hname : IsPlain name) (houter : outer <:+ frames) :
    ({ r with symbols, history := .placed r.pass (fullName name outer) pc :: r.history } : Run).IsSound
      library pass frames := by
  obtain rfl : pass = .first := h.pass_eq.symm.trans hfirst
  exact (h.addLabel hadd hp).notePlaced hname houter fun hsecond => by cases hsecond

theorem isSound_placeAgain {library : Library} {pass : Pass} {frames outer : List Frame} {r : Run}
    {name : String} {p : Position} {pc : Nat} (h : r.IsSound library pass frames)
    (hfault : LineM.relabelFault? r.symbols (fullName name outer) (.ofNat pc) p = none) (hname : IsPlain name)
    (houter : outer <:+ frames) :
    ({ r with history := .placed r.pass (fullName name outer) pc :: r.history } : Run).IsSound
      library pass frames := by
  refine h.notePlaced hname houter fun _ => ?_
  unfold LineM.relabelFault? at hfault
  split at hfault
  · cases hfault
  · rename_i symbol hsymbol
    split_ifs at hfault with hlabel hsame
    simp only [Bool.or_eq_true, not_or] at hlabel
    exact ⟨symbol, hsymbol, by simpa using hlabel.1, hsame⟩

/-! ### Deeds -/

/-- Notes and files are added, whatever is done. -/
theorem Run.isPassage_grows : Run.IsPassage Run.Grows where
  refl := .refl
  trans := .trans
  report _ _ _ := ⟨List.suffix_refl _, .refl _⟩
  recordTree _ _ _ _ := ⟨List.suffix_refl _, .refl _⟩
  deed henv h := by
    have hsame {r r' : Run} (hhistory : r'.history = r.history) (hfiles : r'.files = r.files) : r.Grows r' :=
      ⟨hhistory ▸ List.suffix_refl _, hfiles ▸ .refl _⟩
    cases h with
    | evaluated s hplace hleaves => exact hleaves.follows.grows
    | labelled => exact ⟨List.suffix_cons _ _, .refl _⟩
    | opened hmay hopen =>
      obtain ⟨-, rfl⟩ := Walk.eq_of_openScope hopen
      exact hsame rfl rfl
    | looped hmay hplace hend hname hresume hstart =>
      obtain ⟨-, rfl⟩ := Walk.eq_of_startLoop hstart
      exact hsame rfl rfl
    | stepped hmay hstep =>
      obtain ⟨f, own, l, -, -, ⟨-, rfl⟩ | ⟨l', -, -, rfl⟩⟩ := Walk.eq_of_stepLoop hstep <;> exact hsame rfl rfl
    | ran hmay hx hrun =>
      cases hx with
      | intro => exact henv.answer _ _ hrun
    | @added w r path => exact ⟨r.history_addFile path ▸ List.suffix_refl _, r.filesGrow_addFile path⟩
    | @included w r r' x hmay hx hrun =>
      cases hx with
      | @intro path contents =>
        have hadded : r.Grows (r.inFile path) := ⟨r.history_addFile path ▸ List.suffix_refl _, r.filesGrow_addFile path⟩
        exact (hadded.trans (henv.answer _ _ hrun)).trans (hsame rfl rfl)
    | @inlined s c spelling text =>
      have hinside : s.run.Grows s.inText.run := ⟨List.suffix_cons _ _, .refl _⟩
      exact (hinside.trans (henv.text text s.inText)).trans (hsame rfl rfl)
    | _ => exact hsame rfl rfl

/-- What holds between the deeds of a statement. A statement that calls a macro writes
names in the scope that was opened last, where the second pass has placed no label yet. -/
structure Site.Keeps (env : Setting) (site : Site) (may : Doing → Prop) (w : Walk) (r : Run) : Prop where
  holds : site.Holds env w r
  live : may .stepping → w.isLive = true
  standing : may .turning → w.rewound = false
  apart : ¬ may .calling → ∀ f ∈ w.own, f.isExpansion = false
  unplaced : may .calling → ∀ f own, w.own = f :: own → f.isExpansion = true → f.id = r.lastScope →
    ∀ name pc, IsPlain name → .placed .second (fullName name w.frames) pc ∉ r.history

section
variable {may : Doing → Prop}

theorem Site.Keeps.changeRun (h : site.Keeps env may w r) (hrun : r'.IsSound env.library site.pass w.frames)
    (hfiles : FilesGrow r.files r'.files) (hquiet : may .calling → r'.lastScope = r.lastScope ∧
      ∀ full pc, .placed .second full pc ∈ r'.history → .placed .second full pc ∈ r.history) :
    site.Keeps env may w r' where
  holds := h.holds.changeRun hrun hfiles
  live := h.live
  standing := h.standing
  apart := h.apart
  unplaced hmay f own hown hf hid name pc hname hmem := by
    obtain ⟨hlast, hhistory⟩ := hquiet hmay
    exact h.unplaced hmay f own hown hf (hid.trans hlast) name pc hname (hhistory _ _ hmem)

theorem Site.Keeps.follows (h : site.Keeps env may w r) (hf : r.Follows w.frames r') : site.Keeps env may w r' := by
  refine h.changeRun (h.holds.run.follows hf) hf.grows.files fun _ => ⟨hf.lastScope, fun full pc hmem => ?_⟩
  obtain ⟨notes, hhistory, hnotes⟩ := hf.history
  rw [hhistory] at hmem
  rcases List.mem_append.mp hmem with hmem | hmem
  · obtain ⟨_, _, _, heq, -⟩ := hnotes _ hmem
    cases heq
  · exact hmem

/-- The scopes that are left when one is closed are older than the last one. -/
theorem Site.Keeps.closeScope (h : site.Keeps env may w r) (hrun : r'.IsSound env.library site.pass w.frames)
    (hfiles : FilesGrow r.files r'.files) {f : Frame} {own : List Frame} (hown : w.own = f :: own) :
    site.Keeps env may { w with own } r' where
  holds := (h.holds.changeRun hrun hfiles).closeScope hown
  live := h.live
  standing := h.standing
  apart hmay g hg := h.apart hmay g (hown ▸ List.mem_cons_of_mem _ hg)
  unplaced _ g own' hown' _ hid := by
    have hframes : w.frames = f :: (own ++ w.inherited) := by rw [Walk.frames, hown, List.cons_append]
    have hg : g ∈ own := by
      rw [show own = g :: own' from hown']
      exact List.mem_cons_self
    have hordered := hrun.ordered
    have hopened := hrun.opened
    rw [hframes] at hordered hopened
    have holder := (List.pairwise_cons.mp hordered).1 g (List.mem_append_left _ hg)
    exact absurd (hid ▸ holder) (Nat.not_lt.mpr (hopened f List.mem_cons_self))

theorem Deed.keeps {x y : Walk × Run} (henv : env.IsSound site.pass) (hone : ∀ a b, may a → may b → a = b)
    (h : Deed env (.ofLine site.line.toList) may x y) (hx : site.Keeps env may x.1 x.2) :
    .inlined ∈ y.2.history ∨ site.Keeps env may y.1 y.2 := by
  have hother {doing : Doing} (hmay : may doing) (hne : doing ≠ .calling) : ¬ may .calling :=
    fun hcalling => hne (hone _ _ hmay hcalling)
  have hsymbols {r : Run} {symbols : SymbolTable} (_ : may .calling) :
      ({ r with symbols } : Run).lastScope = r.lastScope ∧ ∀ full pc, .placed .second full pc ∈
        ({ r with symbols } : Run).history → .placed .second full pc ∈ r.history := ⟨rfl, fun _ _ h => h⟩
  have hloopless {l : Loop} {id count : Nat} {spot : Spot} :
      (⟨.loop l, id, count, spot⟩ : Frame).isExpansion = false := rfl
  cases h with
  | evaluated s hplace hleaves => exact Or.inr (hx.follows hleaves.follows)
  | idled | coded | saved => exact Or.inr (hx.follows (.of_eq rfl rfl rfl rfl rfl rfl))
  | processor hmay value => exact Or.inr (hx.changeRun (hx.holds.run.changeProcessor value) (.refl _) hsymbols)
  | @labelled w r c spelling outer symbols hmay hplace hfind houter hplaces =>
    refine Or.inr (hx.changeRun ?_ (.refl _) fun hcalling => absurd hcalling (hother hmay (by rintro ⟨⟩)))
    obtain ⟨⟨past, hstands⟩, -⟩ := hplace
    have hbehind := LineM.behind_promotion (LineM.behind_spelling hstands hfind)
    obtain ⟨hfirst, hadd⟩ | ⟨rfl, hfault⟩ := hplaces
    · exact isSound_placeFirst hx.holds.run hfirst hadd (hx.holds.isPlace hbehind) (Cursor.isPlain_name _) houter
    · exact isSound_placeAgain hx.holds.run hfault (Cursor.isPlain_name _) houter
  | assigned => exact Or.inr (hx.changeRun (hx.holds.run.add _ _ _) (.refl _) hsymbols)
  | @reassigned w r c symbol hmay hplace hname hsymbol hsame value =>
    refine Or.inr (hx.changeRun (hx.holds.run.change (fun other hother => ?_) value) (.refl _) hsymbols)
    -- no label stands at the place of an assignment
    cases hsymbol.symm.trans hother
    by_contra hlabel
    obtain ⟨p, hp, hlabelled⟩ := hx.holds.run.places _ symbol hsymbol (by simpa using hlabel)
    obtain rfl := Option.some.inj (hsame.symm.trans hp)
    cases hlabelled.unique (hx.holds.isPlace (hplace.2 hname))
  | @opened w w' r r' kind spot hmay hopen =>
    obtain ⟨rfl, rfl⟩ := Walk.eq_of_openScope hopen
    have hkind : ∀ l, kind ≠ .loop l := by
      rintro l rfl
      rcases hmay with ⟨hkind, -⟩ | ⟨hkind, -⟩ <;> cases hkind
    refine Or.inr ⟨hx.holds.openScope kind spot fun l hl => absurd hl (hkind l), hx.live, hx.standing,
      fun hcalling f hf => ?_, fun _ f own hown _ _ name pc hname => ?_⟩
    · rcases List.mem_cons.mp hf with rfl | hf
      · obtain ⟨rfl, -⟩ := hmay.resolve_right fun h => hcalling h.2
        rfl
      · exact hx.apart hcalling f hf
    · exact (hx.holds.run.openScope kind spot).2.not_mem hname rfl
  | closed hmay hown hf => exact Or.inr (hx.closeScope hx.holds.run (.refl _) hown)
  | @looped w w' r r' l spot c hmay hplace hend hname hresume hstart =>
    obtain ⟨past, hstands⟩ := hplace
    have hentry : w.buffer.IsEntry l.resume := by
      rw [hresume]
      exact hx.holds.isEntry (Cursor.between_of_atStatementEnd hstands hend)
    have hholds := hx.holds.startLoop hname hentry hstart
    obtain ⟨rfl, rfl⟩ := Walk.eq_of_startLoop hstart
    refine Or.inr ⟨hholds, hx.live, hx.standing, fun hcalling f hf => ?_,
      fun hcalling => absurd hcalling (hother hmay (by rintro ⟨⟩))⟩
    rcases List.mem_cons.mp hf with rfl | hf
    · exact hloopless
    · exact hx.apart hcalling f hf
  | @stepped w w' r r' hmay hstep =>
    have hholds := hx.holds.stepLoop (hx.live hmay) hstep
    obtain ⟨f, own, l, hown, hkind, ⟨rfl, rfl⟩ | ⟨l', -, rfl, rfl⟩⟩ := Walk.eq_of_stepLoop hstep
    · exact Or.inr (hx.closeScope hx.holds.run (.refl _) hown)
    · refine Or.inr ⟨hholds, hx.live, fun hturning => ?_, fun hcalling g hg => ?_,
        fun hcalling => absurd hcalling (hother hmay (by rintro ⟨⟩))⟩
      · cases hone _ _ hmay hturning
      · rcases List.mem_cons.mp hg with rfl | hg
        · exact hloopless
        · exact hx.apart hcalling g (hown ▸ List.mem_cons_of_mem _ hg)
  | turned hmay hsame =>
    refine Or.inr ⟨⟨hx.holds.run, hx.holds.walk.changeConditionals hsame, hx.holds.inherited, hx.holds.line,
      hx.holds.moved⟩, fun hstepping => ?_, hx.standing, hx.apart, hx.unplaced⟩
    cases hone _ _ hmay hstepping
  | @begun w w' r definition column hmay hdefinition hstart =>
    obtain ⟨hholds, conditionals, capture, rfl⟩ := hx.holds.startMacro (hx.standing hmay) hstart fun m hm => by
      obtain ⟨-, name, nameColumn, parameters, rfl, hplain⟩ := hdefinition m hm
      exact Capture.isSound_header _ _ _ _ hplain
    refine Or.inr ⟨hholds, fun hstepping => ?_, hx.standing, hx.apart, hx.unplaced⟩
    cases hone _ _ hmay hstepping
  | @ended w w' r definition hmay hend =>
    obtain ⟨hholds, hfaithful⟩ := hx.holds.endMacro hend
    obtain ⟨-, conditionals, rfl, -⟩ := hx.holds.walk.endMacro hend
    have hkeeps : site.Keeps env may { w with conditionals, capture := none } r := by
      refine ⟨hholds, fun hstepping => ?_, hx.standing, hx.apart, hx.unplaced⟩
      cases hone _ _ hmay hstepping
    refine Or.inr (hkeeps.changeRun ?_ (.refl _) fun hcalling => absurd hcalling (hother hmay (by rintro ⟨⟩)))
    cases definition with
    | none => exact hholds.run
    | some m => exact hholds.run.addMacro (hfaithful m rfl)
  | referenced =>
    refine Or.inr (hx.follows ?_)
    exact ⟨rfl, rfl, rfl, rfl, MacroTable.get?_addReference _ _ _, .refl _, [], rfl, fun _ h => by cases h⟩
  | @released w r f own name parameter m hmay hown hf hlast hm hparameter =>
    have hplain := (hx.holds.run.macros name m hm).parameters parameter hparameter
    refine Or.inr (hx.changeRun (hx.holds.run.erase ?_ fun pc => ?_) (.refl _) hsymbols)
    · rw [Walk.frames, hown]
      exact Run.fullName_cons_ne_processor _ _ _
    · exact hx.unplaced hmay f own hown hf hlast parameter pc hplain
  | given => exact Or.inr (hx.changeRun (hx.holds.run.add _ _ _) (.refl _) hsymbols)
  | @ran w r r' own x hmay hcall hrun =>
    cases hcall with
    | @intro f name m callSite start hown hf hroom hm hsite =>
      have hsound := henv.runBuffer _ _ _ _ _ hrun hx.holds.run (hx.holds.run.macros name m hm).body
      exact hsound.imp_right fun hrun' => hx.closeScope hrun' (henv.grows.answer _ _ hrun).files hown
  | @added w r path =>
    have hfiles := r.filesGrow_addFile path
    refine Or.inr (hx.changeRun (hx.holds.run.addFile hfiles) hfiles fun _ => ?_)
    rw [Run.addFile_eq]
    exact ⟨rfl, fun _ _ h => h⟩
  | @included w r r' x hmay hcall hrun =>
    cases hcall with
    | @intro path contents includes hincludes htext =>
      obtain ⟨hfiles, hexcerpt⟩ := isExcerpt_addFile henv.coherent r htext
      have hsound := henv.runBuffer _ _ _ _ _ hrun ((hx.holds.run.addFile hfiles).changeDepth _) hexcerpt
      refine hsound.imp_right fun hrun' => ?_
      exact hx.changeRun (hrun'.changeDepth _) (hfiles.trans (henv.grows.answer _ _ hrun).files)
        fun hcalling => absurd hcalling (hother hmay (by rintro ⟨⟩))
  | @inlined s c spelling text hmay hplace hfind hrest hcursor hevals =>
    exact Or.inl ((henv.grows.text text s.inText).history.subset List.mem_cons_self)

end

/-! ### Statements -/

/-- A statement may start at the cursor, and the walk is not about to go back. No macro
call is under way in the lines of the walk. -/
structure LineState.IsReady (site : Site) (s : LineState) : Prop where
  standing : s.walk.rewound = false
  apart : ∀ f ∈ s.walk.own, f.isExpansion = false
  between : s.cursor.Between site.line.toList

/-- What holds where a line is left, unless a text has been executed. -/
def LineState.IsLeft (env : Setting) (site : Site) (s : LineState) : Prop :=
  .inlined ∈ s.run.history ∨ site.Holds env s.walk s.run ∧ ∀ f ∈ s.walk.own, f.isExpansion = false

namespace LineM

theorem isEnd_asm {pass : Pass} (henv : env.IsSound pass) : wp asm env s (fun _ t => t.cursor.IsEnd) fun _ _ => True := by
  unfold asm
  rw [wp_bind]
  refine wp_imp (IsClosing.isEnd env s) fun found t ht => ?_
  rw [wp_bind, wp_andThen]
  refine wp_inline (fun node u hrun => ?_) fun _ _ _ _ => trivial
  exact henv.runText _ _ _ _ hrun ▸ ht

theorem keepsTo_ofLine {pass : Pass} (henv : env.IsSound pass) (line : List Char) : env.KeepsTo (.ofLine line) :=
  fun _ _ _ _ hrun hs => henv.runText _ _ _ _ hrun ▸ hs

theorem acts_statement_ofLine {pass : Pass} {may : Doing → Prop} {line : List Char} (henv : env.IsSound pass)
    (hmay : ∀ doing, doing? s = some doing → may doing) (hs : (Region.ofLine line).Starts s.cursor) :
    Acts env (.ofLine line) may statement s :=
  acts_statement (keepsTo_ofLine henv line) hmay hs fun _ => hs.1.elim fun _ hstands => ⟨_, hstands.skip _⟩

/-- Behind labels and braces and behind a separator a statement may start at once. -/
theorem ends_perform {pass : Pass} (henv : env.IsSound pass) {line : List Char} {d : Directive} {start : Nat}
    (hs : s.cursor.Behind line (d == .label)) :
    wp (perform d start) env s (fun _ t => t.cursor.IsEnd ∨ t.cursor.Between line) fun _ _ => True := by
  by_cases hlabel : d = .label
  · subst hlabel
    refine wp_imp place_label fun _ t ht => Or.inr ?_
    obtain ⟨past, hstands, -⟩ := behind_promotion hs
    exact ht.1 ▸ hstands.between_name ht.2
  have hkept {m : LineM Unit} (hm : KeepsPlace m) :
      wp m env s (fun _ t => t.cursor.IsEnd ∨ t.cursor.Between line) fun _ _ => True := by
    refine wp_imp (hm.cursor_eq env s) fun _ t ht => Or.inr ?_
    obtain ⟨past, hstands, hpast⟩ := hs
    exact ht ▸ ⟨past, hstands, Or.inr (hpast.trans (by simpa using hlabel))⟩
  by_cases hopen : d = .openBrace
  · exact hopen ▸ hkept (inferInstanceAs (KeepsPlace (openBrace start)))
  by_cases hclose : d = .closeBrace
  · exact hclose ▸ hkept (inferInstanceAs (KeepsPlace (closeBrace start)))
  by_cases hseparator : d = .separator
  · exact hseparator ▸ hkept (inferInstanceAs (KeepsPlace (pure ())))
  by_cases hasm : d = .asm
  · exact hasm ▸ wp_imp (isEnd_asm henv) fun _ _ ht => Or.inl ht
  · have hclosing : IsClosing (perform d start) := isClosing_perform hlabel hopen hclose hseparator hasm
    exact wp_imp (hclosing.isEnd env s) fun _ _ ht => Or.inl ht

/-- **A statement ends where the next one may start.** -/
theorem between_statement {pass : Pass} (henv : env.IsSound pass) {line : List Char}
    (hs : (Region.ofLine line).Starts s.cursor) :
    wp statement env s (fun _ t => t.cursor.Between line) fun _ _ => True := by
  obtain ⟨past, hstands⟩ := hs.1
  have hends : wp statement env s (fun _ t => t.cursor.IsEnd ∨ t.cursor.Between line) fun _ _ => True := by
    cases hd : directive? s with
    | none =>
      refine wp_statement_of_none hd (Or.inl Cursor.isEnd_skipStatement) (fun _ _ => ?_) fun _ _ => ?_
      · exact wp_imp (IsClosing.isEnd env _) fun _ _ ht => Or.inl ht
      · exact wp_imp (IsClosing.isEnd env _) fun _ _ ht => Or.inl ht
    | some d =>
      obtain ⟨spelling, hfind⟩ := find?_of_directive? hd
      apply wp_statement_directive hd hfind
      exact wp_imp (ends_perform henv (behind_spelling hstands hfind)) fun _ _ ht _ => ht
  have hacts : Acts env (.ofLine line) Doing.Any statement s := acts_statement_ofLine henv (fun _ _ => trivial) hs
  refine wp_mono (wp_and hacts hends) (fun _ t ht => ?_) fun _ _ _ => trivial
  obtain ⟨⟨⟨past, hstands⟩, -⟩, hend | hbetween⟩ := ht
  · exact Cursor.between_of_atStatementEnd hstands hend.1
  · exact hbetween

/-- The walk goes back only after a directive. -/
theorem standing_statement : wp statement env s
    (fun goesOn t => goesOn = true → s.walk.rewound = false → t.walk.rewound = false) fun _ _ => True := by
  cases hd : directive? s with
  | none =>
    have hstays : Stays env .whole Doing.Any statement s := stays_statement hd (fun _ _ => trivial) trivial trivial
    exact wp_mono hstays (fun _ _ ht _ hs => ht.2.1 ▸ hs) fun _ _ _ => trivial
  | some d =>
    obtain ⟨spelling, hfind⟩ := find?_of_directive? hd
    apply wp_statement_directive hd hfind
    have hall {m : LineM Unit} {u : LineState} : wp m env u
        (fun _ t => ∀ _ : Array Node, (!t.walk.rewound) = true → s.walk.rewound = false → t.walk.rewound = false)
        fun _ _ => True := by
      rw [wp]
      split
      · intro _ hgoesOn _
        simpa using hgoesOn
      · trivial
    exact hall

/-- A macro call leaves the walk as it was, however it ends. -/
theorem directive?_eq_none_of_calling (h : doing? s = some .calling) : directive? s = none := by
  unfold doing? at h
  cases hd : directive? s with
  | none => rfl
  | some d =>
    rw [hd] at h
    cases d <;> cases h

theorem sound_statement (henv : env.IsSound site.pass) (hs : site.Holds env s.walk s.run)
    (hstanding : s.walk.rewound = false) (hapart : ∀ f ∈ s.walk.own, f.isExpansion = false)
    (hstarts : (Region.ofLine site.line.toList).Starts s.cursor) :
    wp statement env s (fun _ t => t.IsLeft env site) fun _ t => t.IsLeft env site := by
  have hone : ∀ a b, doing? s = some a → doing? s = some b → a = b := fun a b ha hb =>
    Option.some.inj (ha.symm.trans hb)
  have hbegin : site.Keeps env (doing? s = some ·) s.walk s.run := by
    refine ⟨hs, isLive_of_stepping, fun _ => hstanding, fun _ => hapart, fun _ f own hown hf => ?_⟩
    rw [hapart f (hown ▸ List.mem_cons_self)] at hf
    cases hf
  have hdeeds {t : LineState} (h : s.Deeds env (.ofLine site.line.toList) (doing? s = some ·) t) :
      .inlined ∈ t.run.history ∨ site.Keeps env (doing? s = some ·) t.walk t.run := by
    refine h.keeps (P := fun w r => .inlined ∈ r.history ∨ site.Keeps env (doing? s = some ·) w r)
      (fun x y hdeed hx => ?_) (Or.inr hbegin)
    rcases hx with hinlined | hx
    · exact Or.inl ((Run.isPassage_grows.deed henv.grows hdeed).history.subset hinlined)
    · exact hdeed.keeps henv hone hx
  by_cases hcalling : doing? s = some .calling
  · have hskip : (Region.ofLine site.line.toList).Has s.cursor.skipStatement :=
      hstarts.1.elim fun _ hstands => ⟨_, hstands.skip _⟩
    refine wp_mono (stays_statement (directive?_eq_none_of_calling hcalling) (fun _ h => h) hstarts hskip)
      (fun _ t ht => ?_) fun _ t ht => ?_
    · exact (hdeeds ht.2.2).imp_right fun h => ⟨h.holds, ht.2.1 ▸ hapart⟩
    · exact (hdeeds ht.2.deeds).imp_right fun h => ⟨h.holds, ht.1 ▸ hapart⟩
  · refine wp_mono (acts_statement_ofLine henv (fun _ h => h) hstarts) (fun _ t ht => ?_) fun _ t ht => ?_
    · exact (hdeeds ht.2).imp_right fun h => ⟨h.holds, h.apart hcalling⟩
    · exact (hdeeds ht.deeds).imp_right fun h => ⟨h.holds, h.apart hcalling⟩

/-- **What holds of labels holds after all statements of a line**, also where one of
them stops. -/
theorem sound_statementsFrom (henv : env.IsSound site.pass) (steps : Nat) (hs : site.Holds env s.walk s.run)
    (hready : s.IsReady site) :
    wp (statementsFrom steps) env s (fun _ t => t.IsLeft env site) fun _ t => t.IsLeft env site := by
  induction steps generalizing s with
  | zero => exact Or.inr ⟨hs, hready.apart⟩
  | succ steps ih =>
    unfold statementsFrom
    simp only [wp_bind, wp_skipBlanks, wp_getCursor, wp_ite]
    split_ifs with hrest
    · have hstarts : (Region.ofLine site.line.toList).Starts s.cursor.skipBlanks :=
        ⟨hready.between.elim fun _ h => ⟨_, h.1.skip _⟩, hready.between.unmarked⟩
      have hstatement := sound_statement (s := { s with cursor := s.cursor.skipBlanks }) henv hs hready.standing
        hready.apart hstarts
      refine wp_mono (wp_and hstatement (wp_and (between_statement henv hstarts) standing_statement))
        (fun goesOn t ht => ?_) fun _ _ ht => ht.1
      obtain ⟨hleft, hbetween, hstanding⟩ := ht
      split_ifs with hgoesOn
      · rcases hleft with hinlined | ⟨hholds, hapart⟩
        · have hkept {u : LineState} (h : t.run.Grows u.run) : u.IsLeft env site := Or.inl (h.history.subset hinlined)
          exact wp_mono (deeds_statementsFrom steps) (fun _ _ hu => hkept (Run.isPassage_grows.deeds henv.grows hu))
            fun _ _ hu => hkept (Run.isPassage_grows.deeds henv.grows hu)
        · exact ih hholds ⟨hstanding hgoesOn hready.standing, hapart, hbetween⟩
      · exact hleft
    · exact Or.inr ⟨hs, hready.apart⟩

theorem sound_statements (henv : env.IsSound site.pass) (hs : site.Holds env s.walk s.run) (hready : s.IsReady site) :
    wp statements env s (fun _ t => t.IsLeft env site) fun _ t => t.IsLeft env site :=
  sound_statementsFrom henv _ hs hready

end LineM
end
end Asm6502
