/-
# The calls around a byte

The origin of a byte is the place of the statement that stored it, and the calls around
that statement can be followed from there: this holds for one statement, so it holds for
all that a walk executes. A byte keeps its origin unless it is cleared or overwritten by
a copy.

Key definitions: `Issues`, `Executed.Stores`, `Executed.Moves`, `Accounts`, `Stands`,
`Recounts`.
Key theorems: `Deed.issues`, `Stands.recounts`, `Recounts.append`, `Unfolds.isRecounted`.
-/
import Asm6502.Proofs.Walk.Capture
import Asm6502.Proofs.Walk.Trace

namespace Asm6502

open LineM

/-! ### Files -/

/-- Whether a number is that of a file. -/
def IsFile (files : Array Path) (file : Nat) : Prop := ∃ path, files[file]? = some path

theorem IsFile.mono {files files' : Array Path} {file : Nat} (h : IsFile files file) (hgrow : FilesGrow files files') :
    IsFile files' file := by
  obtain ⟨path, hpath⟩ := h
  exact ⟨path, hgrow file path hpath⟩

/-- A file that is added has its number. -/
theorem Run.isFile_addFile (r : Run) (path : Path) : IsFile (r.addFile path).2.files (r.addFile path).1 := by
  unfold addFile fileIndex?
  split
  · rename_i file hfile
    obtain ⟨hlt, -⟩ := Array.findIdx?_eq_some_iff_getElem.mp hfile
    exact ⟨_, Array.getElem?_eq_getElem hlt⟩
  · exact ⟨path, by simp⟩

/-- Whether the file of every macro is known. -/
def Run.Knows (r : Run) : Prop := ∀ name m, r.macros.get? name = some m → IsFile r.files m.definedAt.file

theorem Run.Knows.of_macros {r r' : Run} (h : r.Knows) (hmacros : ∀ name, r'.macros.get? name = r.macros.get? name)
    (hfiles : FilesGrow r.files r'.files) : r'.Knows :=
  fun name m hm => (h name m ((hmacros name).symm.trans hm)).mono hfiles

/-- Whether the file of a walk and that of the macro which it captures are known. -/
structure Walk.Knows (files : Array Path) (w : Walk) : Prop where
  buffer : IsFile files w.buffer.file
  capture : ∀ c, w.capture = some c → IsFile files c.definition.definedAt.file

theorem Walk.Knows.mono {w w' : Walk} {files files' : Array Path} (h : w.Knows files) (hgrow : FilesGrow files files')
    (hbuffer : w'.buffer = w.buffer) (hcapture : w'.capture = w.capture) : w'.Knows files' :=
  ⟨hbuffer ▸ h.buffer.mono hgrow, hcapture ▸ fun c hc => (h.capture c hc).mono hgrow⟩

/-! ### Statements by themselves -/

/-- What the deeds of a statement come to as far as the origins of bytes go. -/
structure Issues (bulk : Prop) (index : Nat) (x y : Walk × Run) : Prop where
  code : x.2.code.Emits bulk (x.1.buffer.origin index 0) y.2.code
  files : FilesGrow x.2.files y.2.files
  buffer : y.1.buffer = x.1.buffer
  walk : x.1.Knows x.2.files → y.1.Knows y.2.files
  run : x.1.Knows x.2.files → x.2.Knows → y.2.Knows

namespace Issues

variable {bulk : Prop} {index : Nat} {x y z : Walk × Run}

theorem of_eq (hcode : y.2.code = x.2.code) (hfiles : FilesGrow x.2.files y.2.files)
    (hmacros : ∀ name, y.2.macros.get? name = x.2.macros.get? name) (hbuffer : y.1.buffer = x.1.buffer)
    (hcapture : y.1.capture = x.1.capture) : Issues bulk index x y where
  code := hcode ▸ .refl _
  files := hfiles
  buffer := hbuffer
  walk h := h.mono hfiles hbuffer hcapture
  run _ h := h.of_macros hmacros hfiles

/-- All is as it was but for what does not matter here. -/
theorem of_same {w w' : Walk} {r r' : Run} (hcode : r'.code = r.code) (hfiles : r'.files = r.files)
    (hmacros : r'.macros = r.macros) (hbuffer : w'.buffer = w.buffer) (hcapture : w'.capture = w.capture) :
    Issues bulk index (w, r) (w', r') :=
  of_eq hcode (hfiles ▸ .refl _) (fun _ => by rw [hmacros]) hbuffer hcapture

theorem trans (h : Issues bulk index x y) (h' : Issues bulk index y z) : Issues bulk index x z where
  code := h.code.trans (h.buffer ▸ h'.code)
  files := h.files.trans h'.files
  buffer := h'.buffer.trans h.buffer
  walk hw := h'.walk (h.walk hw)
  run hw hr := h'.run (h.walk hw) (h.run hw hr)

end Issues

section
variable {env : Setting} {on : Region} {may : Doing → Prop}

/-- Whatever is done without other lines and texts gives bytes the origin of the
statement. -/
theorem Deed.issues {x y : Walk × Run} (h : Deed env on may x y)
    (hanswer : ∀ c r, may .calling ∨ may .including → env.answer c = some r → r = c.run) (hinlining : ¬ may .inlining) :
    Issues (may .moving) env.index x y := by
  cases h with
  | coded action hadmits => exact ⟨ObjectCode.emits_after hadmits, .refl _, rfl, id, fun _ h => h⟩
  | opened _ hopen =>
    obtain ⟨rfl, rfl⟩ := Walk.eq_of_openScope hopen
    exact .of_same rfl rfl rfl rfl rfl
  | looped _ _ _ _ _ hstart =>
    obtain ⟨rfl, rfl⟩ := Walk.eq_of_startLoop hstart
    exact .of_same rfl rfl rfl rfl rfl
  | stepped _ hstep =>
    obtain ⟨f, own, l, -, -, ⟨rfl, rfl⟩ | ⟨l', -, rfl, rfl⟩⟩ := Walk.eq_of_stepLoop hstep
    · exact .of_same rfl rfl rfl rfl rfl
    · exact .of_same rfl rfl rfl rfl rfl
  | @begun w w' r definition column _ hdefinition hstart =>
    rw [Walk.frame_of_startMacro hstart]
    -- a macro that is captured from here on is defined in the file of the walk
    refine ⟨.refl _, .refl _, rfl, fun hw => ⟨hw.buffer, fun c hc => ?_⟩, fun _ h => h⟩
    obtain ⟨m, hm, rfl⟩ := Option.map_eq_some_iff.mp hc
    obtain ⟨-, name, nameColumn, parameters, rfl, -⟩ := hdefinition m hm
    exact hw.buffer
  | @ended w w' r definition _ hend =>
    unfold Walk.endMacro at hend
    split at hend
    · split_ifs at hend
      cases hend
      refine ⟨.refl _, .refl _, rfl, fun hw => ⟨hw.buffer, fun c hc => by cases hc⟩, fun hw hr => ?_⟩
      -- the only macro that is new is the one that was captured
      cases hcapture : w.capture with
      | none => exact hr
      | some c =>
        intro name m hm
        change (r.macros.add c.definition).get? name = some m at hm
        rw [MacroTable.get?_add] at hm
        split_ifs at hm
        · cases hm
          exact hw.capture c hcapture
        · exact hr name m hm
    · cases hend
  | referenced => exact .of_eq rfl (.refl _) (MacroTable.get?_addReference _ _ _) rfl rfl
  | ran hmay hx hrun =>
    cases hx with
    | intro =>
      obtain rfl := hanswer _ _ (.inl hmay) hrun
      exact .of_same rfl rfl rfl rfl rfl
  | @added w r path =>
    have hfiles := r.filesGrow_addFile path
    rw [Run.addFile_eq] at hfiles ⊢
    exact .of_eq rfl hfiles (fun _ => rfl) rfl rfl
  | @included w r r' x hmay hx hrun =>
    cases hx with
    | @intro path =>
      obtain rfl := hanswer _ _ (.inr hmay) hrun
      have hfiles := r.filesGrow_addFile path
      unfold Run.inFile
      rw [Run.addFile_eq] at hfiles ⊢
      exact .of_eq rfl hfiles (fun _ => rfl) rfl rfl
  | inlined _ hmay => exact absurd hmay hinlining
  | _ => exact .of_same rfl rfl rfl rfl rfl

theorem LineState.Deeds.issues {s t : LineState} (h : s.Deeds env on may t)
    (hanswer : ∀ c r, may .calling ∨ may .including → env.answer c = some r → r = c.run) (hinlining : ¬ may .inlining) :
    Issues (may .moving) env.index (s.walk, s.run) (t.walk, t.run) :=
  h.relates (fun _ => .of_same rfl rfl rfl rfl rfl) (fun _ _ _ => .trans) fun _ _ hdeed => hdeed.issues hanswer hinlining

end

namespace LineM
variable {env : Setting} {s t : LineState}

/-- A statement that brings in no other lines does what it would do if none did
anything. -/
theorem IsAlone.issues (halone : IsAlone statement env s) (hasm : directive? s ≠ some .asm) :
    Issues (doing? s = some .moving) env.index (s.walk, s.run)
      ((stateOf (statement env s)).walk, (stateOf (statement env s)).run) := by
  let x : Call := ⟨env.allowance, s.walk.buffer, [], s.run⟩
  have hdeeds : s.Deeds (env.upTo x) .whole (doing? s = some ·) (stateOf (statement (env.upTo x) s)) :=
    wp_stateOf deeds_statement
  rw [halone.congr (env.upTo x) ⟨rfl, rfl, rfl⟩] at hdeeds
  exact hdeeds.issues (fun c _ _ hc => Setting.answer_upTo c hc) fun h => hasm (doing?_eq_inlining.mp h)

/-- Little is done until a text is opened. -/
theorem issues_openText (bulk : Prop) : wp openText env s
    (fun _ t => Issues bulk env.index (s.walk, s.run) (t.walk, t.run))
    fun _ t => Issues bulk env.index (s.walk, s.run) (t.walk, t.run) := by
  have hdeeds {t : LineState} (h : s.Deeds env .whole Doing.None t) :
      Issues bulk env.index (s.walk, s.run) (t.walk, t.run) := by
    have hissues := h.issues (fun _ _ hmay => (hmay.elim id id).elim) id
    exact ⟨hissues.code.mono False.elim, hissues.files, hissues.buffer, hissues.walk, hissues.run⟩
  refine wp_mono wp_openText (fun _ t ht => ?_) fun _ _ ht => hdeeds ht
  obtain ⟨-, u, rfl, hu⟩ := ht
  exact (hdeeds hu).trans (.of_same rfl rfl rfl rfl rfl)

end LineM

/-! ### What is known of bytes -/

namespace Executed

/-- Whether a statement clears or copies memory. -/
def IsBulk (e : Executed) : Prop := e.directive = some .clear ∨ e.directive = some .copyBlock

instance (e : Executed) : Decidable e.IsBulk :=
  inferInstanceAs (Decidable (e.directive = some .clear ∨ e.directive = some .copyBlock))

/-- Whether a statement stores a byte at an address that was free. -/
structure Stores (e : Executed) (address : Nat) : Prop where
  inside : address < memorySize
  emits : ¬ e.IsBulk
  free : (e.before.cell address).used = false
  used : (e.after.cell address).used = true

/-- Whether a statement clears or copies cells and so changes the one at an address. -/
structure Moves (e : Executed) (address : Nat) : Prop where
  bulk : e.IsBulk
  changed : e.after.cell address ≠ e.before.cell address

end Executed

/-- Whether some statements account for a byte: one of them stored it and none after
that clears it or copies another one there, or else one does so. -/
def Accounts (es : List Executed) (address : Nat) : Prop :=
  (∃ earlier e later, es = earlier ++ e :: later ∧ e.Stores address ∧ ∀ e' ∈ later, ¬ e'.Moves address) ∨
    ∃ e ∈ es, e.Moves address

/-- Whether a walk stands inside calls that are noted, in a run in which all is linked
and all files are known. -/
structure Stands (calls : List SourceLine) (w : Walk) (r : Run) : Prop where
  linked : r.code.IsLinked
  stack : IsCallStack r.files r.code.callSites w.buffer.callSite calls
  run : r.Knows
  walk : w.Knows r.files

/-- What is known of bytes after some statements. -/
structure Recounts (r : Run) (es : List Executed) (r' : Run) : Prop where
  files : FilesGrow r.files r'.files
  sites : ∀ (i : Nat) o, r.code.callSites[i]? = some o → r'.code.callSites[i]? = some o
  linked : r'.code.IsLinked
  knows : r'.Knows
  kept : ∀ a < memorySize, (∀ e ∈ es, ¬ e.Moves a) → (r.code.cell a).used = true →
    (r'.code.cell a).used = true ∧ (r'.code.cell a).origin = (r.code.cell a).origin
  stored : ∀ a earlier e later, es = earlier ++ e :: later → e.Stores a → (∀ e' ∈ later, ¬ e'.Moves a) →
    (r'.code.cell a).used = true ∧ ∃ o path, (r'.code.cell a).origin = some o ∧ r'.files[o.file]? = some path ∧
      e.path = some path ∧ o.line = e.line ∧ IsCallStack r'.files r'.code.callSites o.parent e.calls
  used : ∀ a < memorySize, (r'.code.cell a).used = true → (r.code.cell a).used = true ∨ Accounts es a

namespace Recounts

variable {r r' r'' : Run} {es es' : List Executed}

/-- Nothing is executed. -/
theorem nil (hlinked : r.code.IsLinked) (hcode : r'.code = r.code) (hfiles : FilesGrow r.files r'.files)
    (hknows : r'.Knows) : Recounts r [] r' where
  files := hfiles
  sites := hcode ▸ fun _ _ => id
  linked := hcode ▸ hlinked
  knows := hknows
  kept := hcode ▸ fun _ _ _ hused => ⟨hused, rfl⟩
  stored a earlier e later h := by cases earlier <;> cases h
  used := hcode ▸ fun _ _ hused => .inl hused

/-- Some statements and then others. -/
theorem append (h : Recounts r es r') (h' : Recounts r' es' r'') : Recounts r (es ++ es') r'' where
  files := h.files.trans h'.files
  sites i o ho := h'.sites i o (h.sites i o ho)
  linked := h'.linked
  knows := h'.knows
  kept a ha hmoves hused := by
    obtain ⟨hused', horigin⟩ := h.kept a ha (fun e he => hmoves e (List.mem_append_left _ he)) hused
    obtain ⟨hused'', horigin'⟩ := h'.kept a ha (fun e he => hmoves e (List.mem_append_right _ he)) hused'
    exact ⟨hused'', horigin'.trans horigin⟩
  stored a earlier e later hsplit hstores hmoves := by
    rcases List.append_eq_append_iff.mp hsplit with ⟨before, rfl, hes'⟩ | ⟨rest, hes, hrest⟩
    · exact h'.stored a before e later hes' hstores hmoves
    cases rest with
    | nil => exact h'.stored a [] e later hrest.symm hstores hmoves
    | cons e₀ rest =>
      obtain ⟨rfl, rfl⟩ := List.cons.inj hrest
      obtain ⟨hused, o, path, ho, hfile, hpath, hline, hstack⟩ :=
        h.stored a earlier e rest hes hstores fun e' he' => hmoves e' (List.mem_append_left _ he')
      obtain ⟨hused', horigin⟩ := h'.kept a hstores.inside (fun e' he' => hmoves e' (List.mem_append_right _ he')) hused
      exact ⟨hused', o, path, horigin.trans ho, h'.files _ _ hfile, hpath, hline, hstack.mono h'.files h'.sites⟩
  used a ha hused := by
    by_cases hmoves : ∃ e ∈ es', e.Moves a
    · obtain ⟨e, he, hmoves⟩ := hmoves
      exact .inr (.inr ⟨e, List.mem_append_right _ he, hmoves⟩)
    have hstays (e : Executed) (he : e ∈ es') : ¬ e.Moves a := fun h => hmoves ⟨e, he, h⟩
    rcases h'.used a ha hused with hused' | ⟨earlier, e, later, rfl, hstores, hlater⟩ | hmoved
    · refine (h.used a ha hused').imp_right fun haccounts => ?_
      rcases haccounts with ⟨earlier, e, later, rfl, hstores, hlater⟩ | ⟨e, he, hmoved⟩
      · refine .inl ⟨earlier, e, later ++ es', by simp, hstores, fun e' he' => ?_⟩
        exact (List.mem_append.mp he').elim (hlater e') (hstays e')
      · exact .inr ⟨e, List.mem_append_left _ he, hmoved⟩
    · exact .inr (.inl ⟨es ++ earlier, e, later, by simp, hstores, hlater⟩)
    · exact absurd hmoved hmoves

/-- Changes that leave the bytes alone do not matter. -/
theorem aside (h : Recounts r es r') (hcode : r''.code = r'.code) (hfiles : FilesGrow r'.files r''.files)
    (hknows : r''.Knows) : Recounts r es r'' := by
  have happend := h.append (nil h.linked hcode hfiles hknows)
  rwa [List.append_nil] at happend

end Recounts

/-- A walk in the same buffer after some statements. -/
theorem Stands.of_recounts {calls : List SourceLine} {w w' : Walk} {r r' : Run} {es : List Executed}
    (h : Stands calls w r) (hrecounts : Recounts r es r') (hbuffer : w'.buffer = w.buffer) (hwalk : w'.Knows r'.files) :
    Stands calls w' r' where
  linked := hrecounts.linked
  stack := hbuffer ▸ h.stack.mono hrecounts.files hrecounts.sites
  run := hrecounts.knows
  walk := hwalk

/-- **What one statement stores has its place as the origin.** -/
theorem Stands.recounts {calls : List SourceLine} {s : LineState} {w : Walk} {r' : Run} {index : Nat}
    (h : Stands calls s.walk s.run)
    (hissues : Issues (doing? s.atStatement = some .moving) index (s.walk, s.run) (w, r')) :
    Recounts s.run [s.executed index calls r'.code] r' where
  files := hissues.files
  sites i o ho := hissues.code.callSites ho
  linked := hissues.code.isLinked h.linked h.stack.lt_size
  knows := hissues.run h.walk h.run
  kept a ha hmoves hused := by
    rcases hissues.code.cell a ha with ⟨horigin, hsame⟩ | ⟨hfree, -⟩ | ⟨hmoving, -⟩
    · exact ⟨hsame.trans hused, horigin⟩
    · cases hfree.symm.trans hused
    · have hsame : r'.code.cell a = s.run.code.cell a := by
        by_contra hchanged
        exact hmoves _ (List.mem_singleton_self _) ⟨doing?_eq_moving.mp hmoving, hchanged⟩
      rw [hsame]
      exact ⟨hused, rfl⟩
  stored a earlier e later hsplit hstores _ := by
    obtain ⟨rfl, rfl, rfl⟩ : earlier = [] ∧ s.executed index calls r'.code = e ∧ later = [] := by
      cases earlier with
      | nil => simpa using hsplit
      | cons e₀ earlier => simp at hsplit
    rcases hissues.code.cell a hstores.inside with ⟨-, hsame⟩ | ⟨-, hused, o, horigin, hfile, hline, hparent⟩ | ⟨hmoving, -⟩
    · cases (hsame.trans hstores.free).symm.trans hstores.used
    · obtain ⟨path, hpath⟩ := h.walk.buffer
      refine ⟨hused, o, path, horigin, ?_, hpath, hline, ?_⟩
      · rw [hfile]
        exact hissues.files _ _ hpath
      · rw [hparent]
        exact h.stack.mono hissues.files fun i o => hissues.code.callSites
    · exact absurd (doing?_eq_moving.mp hmoving) hstores.emits
  used a ha hused := by
    cases hfree : (s.run.code.cell a).used with
    | true => exact .inl rfl
    | false =>
      right
      by_cases hbulk : (s.executed index calls r'.code).IsBulk
      · refine .inr ⟨_, List.mem_singleton_self _, hbulk, fun hsame => ?_⟩
        change r'.code.cell a = s.run.code.cell a at hsame
        rw [hsame, hfree] at hused
        cases hused
      · exact .inl ⟨[], _, [], rfl, ⟨ha, hbulk, hfree, hused⟩, fun e' he' => by cases he'⟩

/-! ### Statements and lines -/

/-- What is known after some statements of a line. -/
structure Proceeds (s : LineState) (es : List Executed) (t : LineState) : Prop where
  recounts : Recounts s.run es t.run
  buffer : t.walk.buffer = s.walk.buffer
  walk : t.walk.Knows t.run.files

theorem Proceeds.trans {s t u : LineState} {es es' : List Executed} (h : Proceeds s es t) (h' : Proceeds t es' u) :
    Proceeds s (es ++ es') u :=
  ⟨h.recounts.append h'.recounts, h'.buffer.trans h.buffer, h'.walk⟩

theorem Stands.of_proceeds {calls : List SourceLine} {s t : LineState} {es : List Executed}
    (h : Stands calls s.walk s.run) (hproceeds : Proceeds s es t) : Stands calls t.walk t.run :=
  h.of_recounts hproceeds.recounts hproceeds.buffer hproceeds.walk

section
variable {library : Library} {bound index : Nat} {a : Allowance} {calls : List SourceLine} {s t u : LineState}

theorem Stands.proceeds (hs : Stands calls s.walk s.run)
    (hissues : Issues (doing? s.atStatement = some .moving) index (s.walk, s.run) (t.walk, t.run)) :
    Proceeds s [s.executed index calls t.run.code] t :=
  ⟨hs.recounts hissues, hissues.buffer, hissues.walk hs.walk⟩

/-- The opening of a text. -/
theorem Stands.proceeds_inlines {env : Setting} {text : String} (hs : Stands calls s.walk s.run)
    (h : s.Inlines env text u) : Proceeds s [s.executed env.index calls u.run.code] u := by
  obtain ⟨spelling, column, -, hopen⟩ := h.opens
  have hissues := of_wp_ok (issues_openText (doing? s.atStatement = some .moving)) hopen
  exact hs.proceeds hissues

/-- An `ASM` that does not get to its text. -/
theorem Stands.proceeds_closed {env : Setting} (hs : Stands calls s.walk s.run)
    (hasm : directive? s.atStatement = some .asm) (hcloses : ∀ text u, ¬ s.Inlines env text u) :
    Proceeds s [s.executed env.index calls (stateOf (statement env s.atStatement)).run.code]
      (stateOf (statement env s.atStatement)) := by
  obtain ⟨spelling, hfind⟩ := find?_of_directive? hasm
  let P (t : LineState) : Prop :=
    Issues (doing? s.atStatement = some .moving) env.index (s.walk, s.run) (t.walk, t.run)
  have hissues : wp statement env s.atStatement (fun _ => P) fun _ => P := by
    apply wp_statement_directive hasm hfind
    refine wp_mono (wp_asm (Q := fun _ => False) (E := fun _ => P) (fun stop t hopen _ => ?_)
      fun text column t hopen _ _ => ?_) (fun _ _ => False.elim) fun _ _ => id
    · have hissues := of_wp_error (issues_openText (doing? s.atStatement = some .moving)) hopen
      exact hissues
    · exact absurd ⟨hasm, spelling, column, hfind, hopen⟩ (hcloses text t)
  exact hs.proceeds (wp_stateOf hissues)

/-- An `ASM` with its text. -/
theorem Stands.proceeds_text {includes evals : Nat} {text : String} {es : List Executed}
    (hs : Stands calls s.walk s.run) (h : s.Inlines (.ofLine library ⟨includes, evals + 1⟩ bound index) text u)
    (htext : Proceeds ⟨.ofText text, #[], #[], u.walk, u.run⟩ es
      (stateOf (statements (.ofLine library ⟨includes, evals⟩ bound index) ⟨.ofText text, #[], #[], u.walk, u.run⟩))) :
    Proceeds s (s.executed index calls u.run.code :: es)
      (stateOf (statement (.ofLine library ⟨includes, evals + 1⟩ bound index) s.atStatement)) := by
  have hopens : Proceeds s [s.executed index calls u.run.code] u := hs.proceeds_inlines h
  generalize hv : stateOf (statements (.ofLine library ⟨includes, evals⟩ bound index)
    ⟨.ofText text, #[], #[], u.walk, u.run⟩) = v at htext
  have hboth : Proceeds s ([s.executed index calls u.run.code] ++ es) v :=
    hopens.trans ⟨htext.recounts, htext.buffer, htext.walk⟩
  have hsame : wp statement (.ofLine library ⟨includes, evals + 1⟩ bound index) s.atStatement
      (fun _ t => t.walk = v.walk ∧ ∃ depth, t.run = { v.run with depth })
      fun _ t => t.walk = v.walk ∧ ∃ depth, t.run = { v.run with depth } := by
    refine h.wp_statement (Q := fun w r => w = v.walk ∧ ∃ depth, r = { v.run with depth })
      (E := fun _ w r => w = v.walk ∧ ∃ depth, r = { v.run with depth }) ?_
    unfold wp
    cases hrun : statements (.ofLine library ⟨includes, evals⟩ bound index) ⟨.ofText text, #[], #[], u.walk, u.run⟩ with
    | ok _ t =>
      obtain rfl : t = v := by rwa [hrun] at hv
      exact fun depth => ⟨rfl, depth, rfl⟩
    | error stop t =>
      obtain rfl : t = v := by rwa [hrun] at hv
      exact fun _ depth _ => ⟨rfl, depth, rfl⟩
  obtain ⟨hwalk, depth, hrun⟩ := wp_stateOf (P := fun t => t.walk = v.walk ∧ ∃ depth, t.run = { v.run with depth }) hsame
  refine ⟨?_, hwalk ▸ hboth.buffer, ?_⟩
  · rw [hrun]
    exact hboth.recounts.aside rfl (.refl _) hboth.recounts.knows
  · rw [hwalk, hrun]
    exact hboth.walk

/-- The lines that a statement brings in stand inside the calls around it, and inside
the call that the statement is. -/
theorem Stands.brings {env : Setting} {w : Walk} {depth : Depth} {x : Call} (hs : Stands calls s.walk s.run)
    (h : s.atStatement.Brings env .whole (doing? s.atStatement = some ·) w depth x)
    (hasm : directive? s.atStatement ≠ some .asm) (hanswer : ∀ c r, env.answer c = some r → r = c.run) :
    Recounts s.run [s.executed env.index calls x.run.code] x.run ∧
      Stands (s.callsInside env.index calls) (.start x.buffer x.frames) x.run := by
  have hbefore {u : LineState} (hdeeds : s.atStatement.Deeds env .whole (doing? s.atStatement = some ·) u) :
      Issues (doing? s.atStatement = some .moving) env.index (s.walk, s.run) (u.walk, u.run) :=
    hdeeds.issues (fun c r _ => hanswer c r) fun hinlining => hasm (doing?_eq_inlining.mp hinlining)
  cases h with
  | @expansion u own hmay hdeeds hx =>
    have hissues := hbefore hdeeds
    have hrecounts := hs.recounts hissues
    cases hx with
    | @intro f name m site start hown hf hroom hm hsite =>
      have hcalls : s.callsInside env.index calls = s.place env.index :: calls := by
        refine if_neg fun hfile => ?_
        rw [doing?_of_directive? hfile] at hmay
        cases hmay
      obtain ⟨path, hpath⟩ := hs.walk.buffer
      have hplace : s.place env.index = (some path, s.walk.buffer.firstLine + env.index) := by
        unfold LineState.place Run.filePath?
        rw [hpath]
      refine ⟨hrecounts, hrecounts.linked, ?_, hrecounts.knows, ?_⟩
      · rw [hissues.buffer] at hsite
        rw [hcalls, hplace]
        exact .cons hsite (hissues.files _ _ hpath) (fun j hj => hrecounts.linked.sites _ _ j hsite hj)
          (hs.stack.mono hissues.files fun i o => hissues.code.callSites)
      · exact ⟨hrecounts.knows name m hm, fun c hc => by cases hc⟩
  | @inclusion u hmay hdeeds hx =>
    have hissues := hbefore hdeeds
    cases hx with
    | @intro path contents includes hincludes htext =>
      have hcalls : s.callsInside env.index calls = calls := if_pos (doing?_eq_including.mp hmay)
      have hcode : (u.run.inFile path).code = u.run.code := by
        rw [Run.inFile, Run.addFile_eq]
      have hmacros : (u.run.inFile path).macros = u.run.macros := by
        rw [Run.inFile, Run.addFile_eq]
      have hrecounts := (hs.recounts hissues).aside hcode (u.run.filesGrow_addFile path)
        ((hissues.run hs.walk hs.run).of_macros (fun _ => by rw [hmacros]) (u.run.filesGrow_addFile path))
      rw [← hcode] at hrecounts
      refine ⟨hrecounts, hrecounts.linked, ?_, hrecounts.knows, ?_⟩
      · rw [hcalls]
        change IsCallStack _ _ u.walk.buffer.callSite _
        rw [hissues.buffer]
        exact hs.stack.mono hrecounts.files hrecounts.sites
      · exact ⟨u.run.isFile_addFile path, fun c hc => by cases hc⟩

/-- A statement with the lines that it brings in. -/
theorem Stands.proceeds_call {x : Call} {es : List Executed} (hs : Stands calls s.walk s.run)
    (hasm : directive? s.atStatement ≠ some .asm)
    (hwaits : Waits x statement (.ofLine library a bound index) s.atStatement) {result : Walk × Run}
    (hwalk : Asm6502.walk library bound x.allowance (.start x.buffer x.frames) x.run = some result)
    (hinner : Stands (s.callsInside index calls) (.start x.buffer x.frames) x.run → Recounts x.run es result.2) :
    Proceeds s (s.executed index calls x.run.code :: es)
      (stateOf (statement (.ofLine library a bound index) s.atStatement)) := by
  have hanswer : (Setting.ofLine library a bound index).answer x = some result.2 :=
    Option.map_eq_some_iff.mpr ⟨result, hwalk, rfl⟩
  have hbrings := hwaits.brings hasm
  obtain ⟨hfirst, hinside⟩ := hs.brings hbrings hasm fun c _ hc => Setting.answer_upTo c hc
  have hboth : Recounts s.run (s.executed index calls x.run.code :: es) result.2 := hfirst.append (hinner hinside)
  -- what follows the lines leaves the run alone, and the walk is on its line again
  obtain ⟨depth, hdepth⟩ := hwaits.returns hasm _ _ (.refl _) hanswer
  have hdeeds : s.atStatement.Deeds (.ofLine library a bound index) .whole (doing? s.atStatement = some ·)
      (stateOf (statement (.ofLine library a bound index) s.atStatement)) := wp_stateOf deeds_statement
  have hmay : doing? s.atStatement = some .calling ∨ doing? s.atStatement = some .including := by
    cases hbrings with
    | expansion hmay => exact .inl hmay
    | inclusion hmay => exact .inr hmay
  have hcapture : (stateOf (statement (.ofLine library a bound index) s.atStatement)).walk.capture = s.walk.capture := by
    refine (hdeeds.conditionals_eq (fun hturning => ?_) fun hinlining => ?_).2.1
    · rcases hmay with hmay | hmay <;> cases hmay.symm.trans hturning
    · exact hasm (doing?_eq_inlining.mp hinlining)
  have hbuffer : (stateOf (statement (.ofLine library a bound index) s.atStatement)).walk.buffer = s.walk.buffer :=
    (hdeeds.comes Setting.isTame_ofLine fun _ => trivial).buffer_eq
  refine ⟨?_, hbuffer, ?_⟩
  · rw [hdepth]
    exact hboth.aside rfl (.refl _) hboth.knows
  · rw [hdepth]
    exact hs.walk.mono hboth.files hbuffer hcapture

end
/-! ### Walks -/

/-- Whether two runs have the same bytes, files and macros. -/
structure Run.SameSource (r r' : Run) : Prop where
  code : r'.code = r.code
  files : r'.files = r.files
  macros : r'.macros = r.macros

theorem Run.isClosing_sameSource : Run.IsClosing Run.SameSource where
  refl _ := ⟨rfl, rfl, rfl⟩
  trans h h' := ⟨h'.code.trans h.code, h'.files.trans h.files, h'.macros.trans h.macros⟩
  report _ _ _ := ⟨rfl, rfl, rfl⟩
  recordTree _ _ _ _ := ⟨rfl, rfl, rfl⟩

theorem Recounts.of_sameSource {r r' r'' : Run} {es : List Executed} (h : Recounts r es r') (hsame : r'.SameSource r'') :
    Recounts r es r'' :=
  have hfiles : FilesGrow r'.files r''.files := hsame.files ▸ .refl _
  h.aside hsame.code hfiles (h.knows.of_macros (fun _ => by rw [hsame.macros]) hfiles)

/-- A line that is captured leaves the place of the definition. -/
theorem Walk.Knows.captureLine {w : Walk} {files : Array Path} (h : w.Knows files) (index : Nat) (line : String) :
    (w.captureLine index line).Knows files := by
  unfold Walk.captureLine
  split
  · exact h
  · rename_i c hc
    split_ifs
    · exact h
    · exact ⟨h.buffer, by rintro _ ⟨⟩; exact h.capture c hc⟩

/-- Leaving a line keeps what is known after it. -/
theorem Proceeds.leave {s t : LineState} {calls : List SourceLine} {es : List Executed} (h : Proceeds s es t)
    (hs : Stands calls s.walk s.run) (index : Nat) (line : String) (record : Bool) (problem : Option Problem) :
    Recounts s.run es (Walk.leave index line record problem t).2 ∧
      Stands calls (Walk.leave index line record problem t).1 (Walk.leave index line record problem t).2 := by
  have hsame := Run.isClosing_sameSource.leave index line record problem t
  have hrecounts := h.recounts.of_sameSource hsame
  obtain ⟨capture, hcapture⟩ := t.walk.captureLine_eq index line
  have hbuffer : (t.walk.captureLine index line).buffer = s.walk.buffer := by
    rw [hcapture]
    exact h.buffer
  exact ⟨hrecounts, hs.of_recounts hrecounts hbuffer (hsame.files ▸ h.walk.captureLine index line)⟩

/-- Whether what is left to execute leaves bytes as recounted. -/
def Task.IsRecounted (library : Library) (calls : List SourceLine) (es : List Executed) : Task → Prop
  | .walk bound a w r => Stands calls w r → ∀ result, Asm6502.walk library bound a w r = some result →
    Recounts r es result.2
  | .line bound index a s => Stands calls s.walk s.run →
    (∀ t, statements (.ofLine library a bound index) s ≠ .error .exhausted t) →
    Proceeds s es (stateOf (statements (.ofLine library a bound index) s))
  | .statement bound index a s => Stands calls s.walk s.run →
    (∀ t, LineM.statement (.ofLine library a bound index) s.atStatement ≠ .error .exhausted t) →
    Proceeds s es (stateOf (LineM.statement (.ofLine library a bound index) s.atStatement))

section
variable {library : Library} {bound : Nat} {a : Allowance} {w v : Walk} {r q : Run} {line : String}
  {calls : List SourceLine}

/-- A line of a walk. -/
theorem Stands.stepLine {es : List Executed} (hs : Stands calls w r)
    (hstep : w.stepLine library (runBufferWithin library bound) a r line = some (v, q))
    (hline : (Task.line bound w.next a (w.entering r line)).IsRecounted library calls es) :
    Recounts r es q ∧ Stands calls v q := by
  have hinside : Stands calls (w.entering r line).walk (w.entering r line).run :=
    ⟨hs.linked, hs.stack, hs.run, hs.walk.buffer, hs.walk.capture⟩
  have hproceeds := hline hinside (ends_of_stepLine hstep)
  obtain ⟨problem, hleave⟩ := Walk.exists_leave hstep
  have hleft := hproceeds.leave hinside w.next line (w.recordsTree r) problem
  unfold Setting.ofLine at hleft
  rwa [hleave] at hleft

/-- A walk that executes nothing more. -/
theorem Stands.recounts_ended (hs : Stands calls w r)
    (hend : w.buffer.lines[w.next]? = none ∨ r.isCancelled = true) {result : Walk × Run}
    (hwalk : Asm6502.walk library bound a w r = some result) : Recounts r [] result.2 := by
  have hnil : Recounts r [] r := .nil hs.linked rfl (.refl _) hs.run
  cases bound with
  | zero => cases hwalk
  | succ bound =>
    unfold Asm6502.walk at hwalk
    split at hwalk
    · cases hwalk
      exact hnil.of_sameSource (Run.isClosing_sameSource.finish w r)
    · rename_i line hline
      rw [hline] at hend
      rw [if_pos (hend.resolve_left (by rintro ⟨⟩))] at hwalk
      cases hwalk
      exact hnil

end

/-- **Whatever is executed leaves bytes as recounted.** -/
theorem Unfolds.isRecounted {library : Library} {calls : List SourceLine} {task : Task} {es : List Executed}
    (h : Unfolds library calls task es) : task.IsRecounted library calls es := by
  induction h with
  | ended hend => exact fun hs result hwalk => hs.recounts_ended hend hwalk
  | steps hline hgoesOn hstep _ _ ihFirst ihOthers =>
    intro hs result hwalk
    obtain ⟨hrecounts, hstands⟩ := hs.stepLine hstep ihFirst
    rw [Stage.walk_of_line hline hgoesOn, hstep] at hwalk
    exact hrecounts.append (ihOthers hstands result hwalk)
  | done hrest =>
    intro hs _
    rw [statements_eq Setting.isTame_ofLine, if_pos hrest]
    exact ⟨.nil hs.linked rfl (.refl _) hs.run, rfl, hs.walk⟩
  | goesOn hrest _ hrun _ ihFirst ihOthers =>
    intro hs hends
    rw [statements_eq Setting.isTame_ofLine, if_neg hrest, hrun] at hends ⊢
    have hproceeds := ihFirst hs fun t ht => by cases hrun.symm.trans ht
    rw [hrun] at hproceeds
    exact hproceeds.trans (ihOthers (hs.of_proceeds hproceeds) hends)
  | @stops calls bound index a s es hrest _ hstops ihFirst =>
    intro hs hends
    rw [statements_eq Setting.isTame_ofLine, if_neg hrest] at hends ⊢
    have hproceeds := ihFirst hs fun t ht => by
      rw [ht] at hends
      exact hends t rfl
    rcases hrun : statement (.ofLine library a bound index) s.atStatement with ⟨_ | _, t⟩ | ⟨stop, t⟩
    · rwa [hrun] at hproceeds
    · exact absurd hrun (hstops t)
    · rwa [hrun] at hproceeds
  | alone hasm halone => exact fun hs _ => hs.proceeds (halone.issues hasm)
  | call hasm hwaits _ ih =>
    intro hs hends
    obtain ⟨result, hwalk⟩ := exists_walk_of_waits hwaits hends
    exact hs.proceeds_call hasm hwaits hwalk fun hinside => ih hinside result hwalk
  | closed hasm hcloses => exact fun hs _ => hs.proceeds_closed hasm hcloses
  | inline hinlines _ ih =>
    intro hs hends
    have hinside := hs.of_proceeds (hs.proceeds_inlines hinlines)
    exact hs.proceeds_text hinlines (ih hinside (hinlines.ne_exhausted hends))

end Asm6502
