/-
# What statements do

Every statement does no more than deeds, the kinds of which depend on what it is.
All but its first character and the places where names are defined stand in the
region after its start.

A macro call closes the scope that it has opened, however it ends.

Key definitions: `Directive.doing?`, `LineM.directive?`, `LineM.doing?`, `Setting.KeepsTo`.
Key theorems: `LineM.acts_includeFile`, `LineM.stays_macroCall`, `LineM.acts_asm`,
`LineM.acts_perform`, `LineM.acts_statement`, `LineM.deeds_statement`.
-/
import Asm6502.Proofs.Statement.Routine

namespace Asm6502

/-- The special kind of deeds that a directive does, if it does any. -/
def Directive.doing? : Directive → Option Doing
  | .label | .cpu => some .defining
  | .openBrace | .closeBrace => some .scoping
  | .forLoop => some .looping
  | .next => some .stepping
  | .ifBlock | .elifBlock | .elseBlock | .endif | .macroHeader | .endMacro => some .turning
  | .includeFile => some .including
  | .includeBytes | .bytes | .strings | .words | .doubleWords => some .writing
  | .clear | .copyBlock => some .moving
  | .asm => some .inlining
  | _ => none

/-- Whether the texts of `ASM` leave a line at a place of the region. -/
def Setting.KeepsTo (env : Setting) (on : Region) : Prop :=
  ∀ text s node t, env.runText text s = .ok node t → on.Has s.cursor → on.Has t.cursor

theorem Setting.keepsTo_whole (env : Setting) : env.KeepsTo .whole := fun _ _ _ _ _ _ => trivial

namespace LineM

section
variable {α β : Type} {env : Setting} {on : Region} {may : Doing → Prop} {s t : LineState} {start : Nat}

/-! ### Files -/

theorem wp_runBuffer {allowance : Allowance} {buffer : Buffer} {frames : List Frame} {Q : Unit → LineState → Prop}
    {E : Stop → LineState → Prop} :
    wp (LineM.runBuffer allowance buffer frames) env s Q E ↔
      (∀ r, env.runBuffer allowance buffer frames s.run = some r → Q () { s with run := r }) ∧
        (env.runBuffer allowance buffer frames s.run = none → E .exhausted s) := by
  simp only [wp, LineM.runBuffer]
  cases env.runBuffer allowance buffer frames s.run <;> simp

theorem Acts.readFile {path : Path} {column : Nat} {f : ByteArray → LineM α}
    (hf : ∀ bytes reads generation, env.library.read path = .ok bytes →
      Acts env on may (f bytes) { s with run := { s.run with reads, generation } }) :
    Acts env on may (readFile path column >>= f) s := by
  have hread (reads generation : Nat) : Deed env on may (s.walk, s.run) (s.walk, { s.run with reads, generation }) :=
    .idled s.run.random s.run.links s.run.printed s.run.lookups reads generation
  unfold LineM.readFile Acts
  simp only [wp_bind, wp_read, wp_modifyRun]
  split
  · rename_i bytes hbytes
    exact (hf bytes _ _ hbytes).deed (hread _ _)
  · exact .of (.single (hread _ _))

theorem acts_includeBytes [Fact (may .writing)] (hs : on.Has s.cursor) : Acts env on may (includeBytes start) s := by
  refine (acts_routine hs).bind fun _ t _ ht => (acts_routine ht).bind fun _ t _ ht => ?_
  refine (acts_routine ht).bind fun _ t _ ht => (acts_routine ht).bind fun _ t _ ht => ?_
  exact .readFile fun _ _ _ _ => acts_routine ht

theorem acts_includeFile (hmay : may .including) (hs : on.Has s.cursor) : Acts env on may (includeFile start) s := by
  refine (acts_routine hs).bind fun argument t _ ht => (acts_routine ht).bind fun _ t _ ht => ?_
  refine (acts_routine ht).bind fun _ t _ ht => .step rfl rfl rfl (.ite (fun _ => .of (.refl t)) fun _ => .step rfl rfl rfl ?_)
  split
  · exact .of (.refl t)
  rename_i includes evals hallowance
  refine .still ht fun path u _ hu hwalk => .readFile fun bytes reads generation hbytes => ?_
  split
  · exact .of (.refl _)
  rename_i contents hcontents
  have htext : env.library.readText path = .ok contents := by
    unfold Library.readText
    rw [hbytes]
    exact hcontents
  rw [← hwalk]
  generalize hu' : ({ u with run := { u.run with reads, generation } } : LineState) = v
  have hinclusion : Call.IsInclusion env v.walk v.run ⟨⟨includes, evals⟩,
      .ofText (v.run.addFile path).1 contents 0 v.walk.buffer.callSite, v.walk.frames, v.run.inFile path⟩ := by
    have hintro : Call.IsInclusion env v.walk v.run _ := .intro includes (by rw [hallowance]) htext
    rwa [hallowance] at hintro
  rw [← show v.walk = u.walk by rw [← hu']]
  simp only [Acts, included, wp_bind, wp_getRun, wp_modifyRun, wp_andThen, wp_runBuffer]
  refine ⟨fun r' hrun => ⟨hu' ▸ hu, .single (.included hmay hinclusion hrun)⟩, fun hrun => ?_⟩
  refine ⟨.single (.added path), fun _ => Or.inr ⟨_, .inclusion hmay (.refl v) hinclusion rfl ?_, hrun⟩⟩
  change (v.run.addFile path).2.depth = v.run.depth
  rw [Run.addFile_eq]

/-! ### Macro calls -/

/-- What comes of a step that leaves the walk as it is. -/
def Stays (env : Setting) (on : Region) (may : Doing → Prop) (m : LineM α) (s : LineState) : Prop :=
  wp m env s (fun _ t => on.Has t.cursor ∧ t.walk = s.walk ∧ s.Deeds env on may t)
    fun stop t => t.walk = s.walk ∧ s.Stops env on may stop t

theorem Stays.after {m : LineM α} {Q : α → LineState → Prop} (h : Stays env on may m t) (hwalk : t.walk = s.walk)
    (hst : s.Deeds env on may t)
    (hQ : ∀ a u, on.Has u.cursor ∧ u.walk = s.walk ∧ s.Deeds env on may u → Q a u) :
    wp m env t Q fun stop u => u.walk = s.walk ∧ s.Stops env on may stop u :=
  wp_mono h (fun a u hu => hQ a u ⟨hu.1, hu.2.1.trans hwalk, hst.trans hu.2.2⟩)
    fun _ _ hu => ⟨hu.1.trans hwalk, hu.2.after hst⟩

theorem Acts.stays {m : LineM α} (kind : Doing) (h : Acts env on may m s) (h' : Acts env on (· = kind) m s)
    (hkind : kind.isStill = true) : Stays env on may m s :=
  have hstill : ∀ doing, doing = kind → doing.isStill = true := fun _ h => h ▸ hkind
  wp_mono (wp_and h h') (fun _ _ ht => ⟨ht.1.1, ht.2.2.walk_eq hstill, ht.1.2⟩)
    fun _ _ ht => ⟨ht.2.deeds.walk_eq hstill, ht.1⟩

/-- Inside the call of a macro of the table, in the scope that the call has opened
on the walk `w`, where `n` scopes have been opened so far. -/
structure IsBinding (env : Setting) (on : Region) (may : Doing → Prop) (m : Macro) (w : Walk) (n : Nat)
    (s t : LineState) : Prop where
  has : on.Has t.cursor
  walk : t.walk = w
  known : ∃ name, t.run.macros.get? name = some m
  last : t.run.lastScope = n
  deeds : s.Deeds env on may t

/-- Where a call on the walk `w` has failed. -/
def HasFailed (env : Setting) (on : Region) (may : Doing → Prop) (w : Walk) (s : LineState) (stop : Stop)
    (t : LineState) : Prop :=
  stop ≠ .exhausted ∧ t.walk = w ∧ s.Deeds env on may t

variable {m : Macro} {w : Walk} {n : Nat}

/-- A step that leaves the walk as it is, before others. -/
theorem wp_binding {x : LineM β} [hx : ∀ may, IsRoutine on may x] {f : β → LineM α} {Q : α → LineState → Prop}
    (h : IsBinding env on may m w n s t)
    (hf : ∀ b u, IsBinding env on may m w n s u → wp (f b) env u Q (HasFailed env on may w s)) :
    wp (x >>= f) env t Q (HasFailed env on may w s) := by
  have hboth := wp_and ((hx may).acts env t h.has) ((hx Doing.None).acts env t h.has)
  rw [wp_bind]
  refine wp_mono hboth (fun b u hu => hf b u ?_) fun _ u hu => ?_
  · obtain ⟨⟨hhas, hdeeds⟩, -, hnone⟩ := hu
    refine ⟨hhas, hnone.resembles.walk.trans h.walk, ?_, hnone.resembles.lastScope.trans h.last, h.deeds.trans hdeeds⟩
    rw [hnone.resembles.macros]
    exact h.known
  · exact ⟨hu.2.ne_exhausted, hu.2.deeds.resembles.walk.trans h.walk, h.deeds.trans hu.1.deeds⟩

section
variable [hmay : Fact (may .calling)] {f : Frame} {own : List Frame} (hown : w.own = f :: own)
  (hf : f.isExpansion = true) (hid : f.id = n)
include hown hf hid

/-- Binding parameters changes their symbols, one after the other. -/
theorem wp_bindEach {parameters : List String} {first : Bool}
    (hparameters : ∀ parameter ∈ parameters, parameter ∈ m.parameters) (h : IsBinding env on may m w n s t) :
    wp (bindEach first parameters) env t (fun _ => IsBinding env on may m w n s)
      (HasFailed env on may w s) := by
  induction parameters generalizing first t with
  | nil => exact h
  | cons parameter parameters ih =>
    have hparameter := hparameters parameter List.mem_cons_self
    have hlater {u : LineState} (hu : IsBinding env on may m w n s u) : wp (bindEach false parameters) env u
        (fun _ => IsBinding env on may m w n s) (HasFailed env on may w s) :=
      ih (fun other hother => hparameters other (List.mem_cons_of_mem _ hother)) hu
    -- what follows once the old binding is out of the way
    have hbind (u : LineState) (hu : IsBinding env on may m w n s u) : wp (do
        let e ← evaluate
        pushPart e.node
        if e.known then modifySymbols (·.add (fullName parameter w.frames) e.value false none)
        bindEach false parameters) env u (fun _ => IsBinding env on may m w n s) (HasFailed env on may w s) := by
      refine wp_binding hu fun e u hu => wp_binding hu fun _ u hu => wp_cases (fun _ => ?_) fun _ => hlater hu
      obtain ⟨name, hname⟩ := hu.known
      refine hlater ⟨hu.has, hu.walk, hu.known, hu.last, hu.deeds.tail ?_⟩
      rw [← hu.walk] at hown ⊢
      exact .given hmay.out hown hf hname hparameter e.value
    have hrest (u : LineState) (hu : IsBinding env on may m w n s u) : wp (do
        let full := fullName parameter (← getWalk).frames
        if ← isSecondPass then modifySymbols (·.erase full)
        let e ← evaluate
        pushPart e.node
        if e.known then modifySymbols (·.add full e.value false none)
        bindEach false parameters) env u (fun _ => IsBinding env on may m w n s) (HasFailed env on may w s) := by
      rw [wp_bind, wp_getWalk, wp_bind, wp_isSecondPass, hu.walk]
      refine wp_cases (fun _ => ?_) fun _ => hbind u hu
      obtain ⟨name, hname⟩ := hu.known
      refine hbind _ ⟨hu.has, hu.walk, hu.known, hu.last, hu.deeds.tail ?_⟩
      rw [← hu.walk] at hown ⊢
      exact .released hmay.out hown hf (hid.trans hu.last.symm) hname hparameter
    unfold bindEach
    refine wp_binding h fun ended u hu => wp_cases (fun _ => ?_) fun _ => wp_cases (fun _ => ?_) fun _ => hrest u hu
    · exact wp_binding hu fun _ u hu => ⟨by simp, hu.walk, hu.deeds⟩
    · exact wp_binding hu fun _ u hu => hrest u hu

theorem wp_bindArguments (h : IsBinding env on may m w n s t) :
    wp (bindArguments m.parameters) env t (fun _ => IsBinding env on may m w n s)
      (HasFailed env on may w s) := by
  unfold bindArguments
  rw [wp_bind]
  refine wp_imp (wp_bindEach hown hf hid (fun _ hm => hm) h) fun _ u hu => wp_binding hu fun ended u hu => ?_
  refine wp_cases (fun _ => wp_binding hu fun _ u hu => wp_cases (fun _ => ?_) fun _ => ?_) fun _ => hu
  · exact wp_binding hu fun _ u hu => ⟨by simp, hu.walk, hu.deeds⟩
  · exact wp_binding hu fun _ u hu => ⟨by simp, hu.walk, hu.deeds⟩

/-- The scope that a call has opened is closed after it, whether it succeeds or
stops. -/
theorem wp_call (hroom : w.frames.length ≤ maxScopes) (h : IsBinding env on may m w n s t) :
    wp (andThen (do bindArguments m.parameters; expand m start) fun s =>
        { s with
          walk := s.walk.closeExpansion
          nodes := s.nodes.push (.mk .macroCall m.name start s.parts.toList) }) env t
      (fun _ u => on.Has u.cursor ∧ u.walk = { w with own } ∧ s.Deeds env on may u)
      fun stop u => u.walk = { w with own } ∧ s.Stops env on may stop u := by
  have hclosed : w.closeExpansion = { w with own } := by
    unfold Walk.closeExpansion
    simp only [hown, hf, if_true]
  have hclose {u : LineState} (nodes : Array Node) (hwalk : u.walk = w) (hu : s.Deeds env on may u) :
      s.Deeds env on may { u with walk := u.walk.closeExpansion, nodes } := by
    refine hu.tail ?_
    rw [hwalk, hclosed]
    exact .closed (Or.inr hmay.out) hown (Frame.isLoop_of_isExpansion hf)
  rw [wp_andThen, wp_bind]
  refine wp_mono (wp_bindArguments hown hf hid h) (fun _ u hu => ?_) fun _ u hu => ?_
  rotate_left
  · obtain ⟨hstop, hwalk, hdeeds⟩ := hu
    exact ⟨(congrArg Walk.closeExpansion hwalk).trans hclosed, hclose _ hwalk hdeeds, fun h => absurd h hstop⟩
  obtain ⟨name, hname⟩ := hu.known
  unfold expand
  simp only [wp_bind, wp_read, wp_getWalk, wp_getRun, wp_modifyCode, wp_runBuffer]
  generalize hv : ({ u with run := { u.run with
    code := (u.run.code.pushCallSite (u.walk.buffer.origin env.index start)).2 } } : LineState) = v
  have hwalk : v.walk = w := by rw [← hv, ← hu.walk]
  have hdeeds : s.Deeds env on may v := by
    rw [← hv]
    refine hu.deeds.tail (.coded (.set _ _ _) (Or.inr ⟨hmay.out, u.walk.buffer.origin env.index start, ?_, rfl⟩))
    exact ⟨rfl, rfl, rfl⟩
  have hexpansion : Call.IsExpansion env v.walk v.run own
      ⟨env.allowance, m.lines u.run.code.callSites.size, v.walk.frames, v.run⟩ := by
    have hsite : v.run.code.callSites[u.run.code.callSites.size]? = some (v.walk.buffer.origin env.index start) := by
      rw [← hv]
      simp [ObjectCode.pushCallSite]
    exact .intro _ start (hwalk ▸ hown) hf (hwalk ▸ hroom) (by rw [← hv]; exact hname) hsite
  have hleft : v.walk.closeExpansion = { v.walk with own } := by rw [hwalk, hclosed]
  have hran {r : Run} (hrun : env.answer ⟨env.allowance, m.lines u.run.code.callSites.size, v.walk.frames, v.run⟩ =
      some r) : s.Deeds env on may { v with walk := v.walk.closeExpansion, run := r } := by
    refine hdeeds.tail ?_
    rw [hleft]
    exact .ran hmay.out hexpansion hrun
  subst hv
  refine ⟨fun r hrun => ⟨hu.has, (congrArg Walk.closeExpansion hwalk).trans hclosed, hran hrun⟩, fun hrun => ?_⟩
  refine ⟨(congrArg Walk.closeExpansion hwalk).trans hclosed, hclose _ hwalk hdeeds, fun _ => Or.inr ?_⟩
  exact ⟨_, .expansion hmay.out hdeeds hexpansion hleft rfl, hrun⟩

end

/-- A call leaves the walk as it was. -/
theorem stays_macroCall [hmay : Fact (may .calling)] (hs : on.Has s.cursor)
    (hm : ∃ name, s.run.macros.get? name = some m) : Stays env on may (macroCall m start) s := by
  have hopen (t : LineState) (ht : IsBinding env on may m s.walk s.run.lastScope s t) : wp (do
      let spot ← spot start
      changeWalk start fun w r => w.openScope r .expansion spot
      andThen (do bindArguments m.parameters; expand m start) fun s =>
        { s with
          walk := s.walk.closeExpansion
          nodes := s.nodes.push (.mk .macroCall m.name start s.parts.toList) }) env t
      (fun _ t => on.Has t.cursor ∧ t.walk = s.walk ∧ s.Deeds env on may t) fun stop t => t.walk = s.walk ∧ s.Stops env on may stop t := by
    rw [wp_bind, wp_spot, wp_bind]
    refine wp_changeWalk (fun w r hopen => ?_) fun _ => ⟨ht.walk, .of ht.deeds⟩
    have hopened : Deed env on may (t.walk, t.run) (w, r) := .opened (Or.inr ⟨rfl, hmay.out⟩) hopen
    have hroom : t.walk.frames.length < maxScopes := by
      by_contra hfull
      rw [Walk.openScope, if_pos (Nat.not_lt.mp hfull)] at hopen
      cases hopen
    obtain ⟨rfl, rfl⟩ := Walk.eq_of_openScope hopen
    rw [← ht.walk]
    exact wp_call (w := { t.walk with own := ⟨.expansion, t.run.lastScope + 1, 0, ⟨env.index, start⟩⟩ :: t.walk.own })
      rfl rfl rfl hroom ⟨ht.has, rfl, ht.known, rfl, ht.deeds.tail hopened⟩
  have hbinding : IsBinding env on may m s.walk s.run.lastScope s s := ⟨hs, rfl, hm, rfl, .refl s⟩
  unfold Stays macroCall
  rw [wp_bind, wp_isSecondPass]
  refine wp_cases (fun _ => ?_) fun _ => hopen s hbinding
  rw [wp_bind, wp_position, wp_bind, wp_modifyRun]
  obtain ⟨name, hname⟩ := hm
  refine hopen _ ⟨hs, rfl, ⟨name, ?_⟩, rfl, .single (.referenced hmay.out _ _)⟩
  exact (MacroTable.get?_addReference _ _ _ _).trans hname

/-! ### Texts -/

/-- Reads the text of an `ASM`, with its column. -/
def readText : LineM (String × Nat) := do
  let argument ← LineM.text
  let text ← argument.take .any
  expectEnd
  if (← read).allowance.evals = 0 then fail .tooManyEvals argument.column
  return (text, argument.column)

theorem openText_eq : openText = (do
    let found ← readText
    modify LineState.inText
    return found) := by
  unfold openText readText
  simp only [bind_assoc]
  refine bind_congr fun argument => bind_congr fun text => bind_congr fun _ => bind_congr fun env => ?_
  split_ifs <;> rfl

instance : IsRoutine on may readText := by
  unfold readText
  refine isRoutine_then fun _ => isRoutine_then fun _ => isRoutine_then fun _ => ?_
  exact isRoutine_read (fun env env' henv => by rw [henv.allowance]) fun env => inferInstance

/-- The text is an argument, which takes a character. -/
theorem wp_readText : wp readText env s (fun _ _ => env.allowance.evals ≠ 0 ∧ s.cursor.rest ≠ []) fun _ _ => True := by
  by_cases hrest : s.cursor.rest = []
  · have hend : s.cursor.skipBlanks.atStatementEnd = true := by
      unfold Cursor.atStatementEnd
      simp [Cursor.rest_skipBlanks, hrest]
    simp only [readText, text, argument, wp_bind, wp_atEnd, wp_ite]
    rw [if_pos hend]
    trivial
  · refine wp_any fun _ _ => wp_any fun _ _ => wp_any fun _ _ => ?_
    rw [wp_bind, wp_read]
    exact wp_cases (fun _ => trivial) fun hevals => ⟨hevals, hrest⟩

/-- Once its argument is read, the text is entered. -/
theorem wp_openText : wp openText env s
    (fun _ t => (env.allowance.evals ≠ 0 ∧ s.cursor.rest ≠ []) ∧ ∃ u, t = u.inText ∧ s.Deeds env .whole Doing.None u)
    fun _ t => s.Deeds env .whole Doing.None t := by
  have hread : Acts env .whole Doing.None readText s := acts_routine trivial
  rw [openText_eq, wp_bind]
  refine wp_mono (wp_and wp_readText hread) (fun found u hu => ?_) fun _ _ hu => hu.2.deeds
  rw [wp_bind, wp_modify]
  exact ⟨hu.1, u, rfl, hu.2.2⟩

theorem wp_inline {text : String} {column : Nat} {Q : Node → LineState → Prop} {E : Stop → LineState → Prop}
    (hQ : ∀ node t, env.runText text s = .ok node t → Q node t)
    (hE : ∀ stop stop' t, env.runText text s = .error stop t → E stop' t) : wp (inline text column) env s Q E := by
  unfold wp inline
  rcases hrun : env.runText text s with ⟨node, t⟩ | ⟨_ | _, t⟩
  · exact hQ node t hrun
  · exact hE _ _ t hrun
  · exact hE _ _ t hrun

theorem acts_asm {c : Cursor} {spelling : String} (hmay : may .inlining) (henv : env.KeepsTo on) (hc : on.Starts c)
    (hs : on.Has s.cursor) (hfind : Directive.find? c.rest = some (spelling, .asm))
    (hcursor : s.cursor = c.skip spelling.length) : Acts env on may asm s := by
  unfold asm
  rw [openText_eq]
  simp only [bind_assoc, pure_bind]
  refine (acts_routine hs).bind fun found t hread ht => ?_
  obtain ⟨hevals, hrest⟩ := of_wp_ok wp_readText hread
  rw [hcursor] at hrest
  have hinlined : Deed env on may (t.walk, t.run) ((stateOf (env.runText found.1 t.inText)).walk,
      (stateOf (env.runText found.1 t.inText)).run.leaveText) := .inlined t hmay hc hfind hrest ht hevals
  simp only [Acts, wp_bind, wp_modify, wp_andThen, wp_pushPart]
  refine wp_inline (fun node u hrun => ?_) fun _ _ u hrun => ?_
  · rw [hrun] at hinlined
    exact ⟨henv _ _ _ _ hrun ht, .single hinlined⟩
  · rw [hrun] at hinlined
    exact ⟨.single hinlined, fun _ => Or.inl hmay⟩

/-! ### Statements -/

theorem length_pos_of_find? {cs : List Char} {spelling : String} {d : Directive}
    (h : Directive.find? cs = some (spelling, d)) : 0 < spelling.length := by
  have hall : ∀ p ∈ Directive.spellings, 0 < p.1.length := by decide
  exact hall _ (List.mem_of_find?_eq_some h)

theorem acts_perform (henv : env.KeepsTo on) {d : Directive} (hmay : ∀ doing, d.doing? = some doing → may doing)
    {c : Cursor} {spelling : String} (hc : on.Starts c) (hfind : Directive.find? c.rest = some (spelling, d))
    (hcursor : s.cursor = c.skip spelling.length) : Acts env on may (perform d start) s := by
  have hs : on.Has s.cursor := hcursor ▸ on.has_skip hc (length_pos_of_find? hfind)
  cases d
  case label =>
    have : Fact (may .defining) := ⟨hmay _ rfl⟩
    exact acts_label hc hs hfind hcursor
  case comment => exact .step rfl rfl rfl ⟨on.further hs (s.cursor.reaches_skip _), .refl s⟩
  case includeFile => exact acts_includeFile (hmay _ rfl) hs
  case includeBytes =>
    have : Fact (may .writing) := ⟨hmay _ rfl⟩
    exact acts_includeBytes hs
  case asm => exact acts_asm (hmay _ rfl) henv hc hs hfind hcursor
  case cpu =>
    have : Fact (may .defining) := ⟨hmay _ rfl⟩
    unfold perform
    exact acts_routine hs
  case openBrace | closeBrace =>
    have : Fact (may .scoping) := ⟨hmay _ rfl⟩
    unfold perform
    exact acts_routine hs
  case forLoop =>
    have : Fact (may .looping) := ⟨hmay _ rfl⟩
    unfold perform
    exact acts_routine hs
  case next =>
    have : Fact (may .stepping) := ⟨hmay _ rfl⟩
    unfold perform
    exact acts_routine hs
  case ifBlock | elifBlock | elseBlock | endif | macroHeader | endMacro =>
    have : Fact (may .turning) := ⟨hmay _ rfl⟩
    unfold perform
    exact acts_routine hs
  case bytes | strings | words | doubleWords =>
    have : Fact (may .writing) := ⟨hmay _ rfl⟩
    unfold perform
    exact acts_routine hs
  case clear | copyBlock =>
    have : Fact (may .moving) := ⟨hmay _ rfl⟩
    unfold perform
    exact acts_routine hs
  all_goals
    unfold perform
    exact acts_routine hs

/-- An instruction or a macro call leaves the walk as it was. -/
theorem stays_operation (hwriting : (Mnemonic.find? s.cursor.rest s.run.code.cpu).isSome = true → may .writing)
    (hcalling : (Mnemonic.find? s.cursor.rest s.run.code.cpu).isSome = false → may .calling)
    (hs : on.Starts s.cursor) : Stays env on may operation s := by
  unfold Stays operation
  rw [wp_bind, wp_getCursor, wp_bind, wp_getRun]
  split
  · rename_i m hfind
    have : Fact (may .writing) := ⟨hwriting (by rw [hfind]; rfl)⟩
    have : Fact (Doing.writing = .writing) := ⟨rfl⟩
    rw [wp_bind, wp_advance]
    have hpast : on.Has (s.cursor.skip 3) := on.has_skip hs (by decide)
    refine Stays.after (Acts.stays .writing ?_ ?_ rfl) rfl (.refl s) fun _ _ h => h <;> exact acts_routine hpast
  · rename_i hfind
    have : Fact (may .calling) := ⟨hcalling (by rw [hfind]; rfl)⟩
    refine wp_cases (fun _ => ⟨rfl, .of (.refl s)⟩) fun hname => ?_
    rw [wp_bind, wp_setCursor]
    have hpast : on.Has s.cursor.name.2 := on.has_skip hs (Cursor.nameLength_pos (by simpa using hname))
    split
    · rename_i m hm
      refine Stays.after ?_ rfl (.refl s) fun _ _ h => h
      exact stays_macroCall hpast ⟨_, hm⟩
    · exact ⟨rfl, .of (.refl s)⟩

/-- The directive that is executed at the cursor, none if the statement there is
another one or is skipped. -/
def directive? (s : LineState) : Option Directive :=
  if s.cursor.atAssignment then none
  else
    match Directive.find? s.cursor.rest with
    | some (_, d) => if s.walk.isLive || d.isStructural then some d else none
    | none => none

section
variable {d : Directive}

theorem find?_of_directive? (h : directive? s = some d) :
    ∃ spelling, Directive.find? s.cursor.rest = some (spelling, d) := by
  unfold directive? at h
  split_ifs at h
  split at h
  · rename_i spelling d' hfind
    split_ifs at h
    obtain rfl := Option.some.inj h
    exact ⟨spelling, hfind⟩
  · cases h

theorem rest_ne_nil_of_directive? (h : directive? s = some d) : s.cursor.rest ≠ [] := by
  obtain ⟨spelling, hfind⟩ := find?_of_directive? h
  intro hnil
  rw [hnil] at hfind
  cases hfind

theorem directive?_met (h : directive? s = some d) : s.walk.isLive = true ∨ d.isStructural = true := by
  obtain ⟨spelling, hfind⟩ := find?_of_directive? h
  unfold directive? at h
  split_ifs at h
  rw [hfind] at h
  dsimp only at h
  split_ifs at h with hmet
  simpa using hmet

/-- What comes of a statement that is a directive, when it is executed. -/
theorem wp_statement_directive {spelling : String} {Q : Bool → LineState → Prop} {E : Stop → LineState → Prop}
    (h : directive? s = some d) (hfind : Directive.find? s.cursor.rest = some (spelling, d))
    (hwp : wp (perform d s.cursor.column) env
      { s with cursor := s.cursor.skip spelling.length, parts := #[] }
      (fun _ t => ∀ nodes, Q (!t.walk.rewound) { t with nodes }) E) : wp statement env s Q E := by
  unfold directive? at h
  split_ifs at h with hassignment
  simp only [hfind] at h
  split_ifs at h with hexecuted
  unfold statement
  simp only [wp_bind, wp_modify, wp_getCursor, wp_getWalk]
  rw [if_neg hassignment]
  simp only [hfind]
  rw [if_pos hexecuted, wp_bind]
  unfold directive
  simp only [wp_bind, wp_column, wp_advance]
  refine wp_mono hwp (fun _ t ht => ?_) fun _ _ h => h
  rw [wp_ite]
  split_ifs
  · exact ht _
  · exact ht t.nodes

end

/-- What comes of a statement that is no directive, or one that is skipped. -/
theorem wp_statement_of_none {Q : Bool → LineState → Prop} {E : Stop → LineState → Prop} (h : directive? s = none)
    (hskip : Q true { s with parts := #[], cursor := s.cursor.skipStatement })
    (hassignment : s.walk.isLive = true → s.cursor.atAssignment = true →
      wp assignment env { s with parts := #[] } (fun _ t => Q true t) E)
    (hoperation : s.walk.isLive = true → s.cursor.atAssignment = false →
      wp operation env { s with parts := #[] } (fun _ t => Q true t) E) :
    wp statement env s Q E := by
  unfold statement
  simp only [wp_bind, wp_modify, wp_getCursor, wp_getWalk]
  unfold directive? at h
  split_ifs at h with hassigns
  · rw [if_pos hassigns, wp_ite]
    split_ifs with hlive
    · rw [wp_bind]
      exact hassignment hlive hassigns
    · exact hskip
  · rw [if_neg hassigns]
    split
    · rename_i spelling d hfind
      rw [hfind] at h
      dsimp only at h
      split_ifs at h with hmet
      rw [if_neg hmet]
      exact hskip
    · rw [wp_ite]
      split_ifs with hlive
      · rw [wp_bind]
        exact hoperation hlive (Bool.eq_false_iff.mpr hassigns)
      · exact hskip

/-- A sign that ends a statement is one of its own, and no condition skips it. -/
theorem find?_of_isStatementEnd {x : Char} (hx : isStatementEnd x = true) (cs : List Char) :
    ∃ spelling d, Directive.find? (x :: cs) = some (spelling, d) ∧ d.isStructural = true := by
  simp only [isStatementEnd, Bool.or_eq_true, beq_iff_eq] at hx
  rcases hx with (rfl | rfl) | rfl
  · exact ⟨":", .separator, rfl, rfl⟩
  · exact ⟨";", .comment, rfl, rfl⟩
  · exact ⟨"\\", .comment, rfl, rfl⟩

/-- A statement that is passed over does not end right where it starts. -/
theorem statementLength_pos_of_none (h : directive? s = none) (hrest : s.cursor.rest ≠ []) :
    0 < statementLength false 0 s.cursor.rest := by
  by_cases hassigns : s.cursor.atAssignment = true
  · exact Cursor.statementLength_pos_of_atName (Bool.and_eq_true_iff.mp hassigns).1
  obtain ⟨x, cs, hcs⟩ := List.exists_cons_of_ne_nil hrest
  rw [hcs]
  refine Cursor.statementLength_pos ?_ cs
  by_contra hend
  obtain ⟨spelling, d, hd, hstructural⟩ := find?_of_isStatementEnd (by simpa using hend) cs
  simp [directive?, hassigns, hcs, hd, hstructural] at h

/-- The special kind of deeds that the statement at the cursor does, if it does any. -/
def doing? (s : LineState) : Option Doing :=
  match directive? s with
  | some d => d.doing?
  | none =>
    if !s.walk.isLive then none
    else if s.cursor.atAssignment then some .defining
    else if (Mnemonic.find? s.cursor.rest s.run.code.cpu).isSome then some .writing
    else some .calling

theorem doing?_of_directive? (h : directive? s = some d) : doing? s = d.doing? := by rw [doing?, h]

/-- A kind of deeds that only directives do. -/
theorem doing?_eq_iff {kind : Doing} (P : Directive → Prop) (hkind : kind ≠ .defining ∧ kind ≠ .writing ∧ kind ≠ .calling)
    (hd : ∀ d, d.doing? = some kind ↔ P d) : doing? s = some kind ↔ ∃ d, directive? s = some d ∧ P d := by
  obtain ⟨hdefining, hwriting, hcalling⟩ := hkind
  unfold doing?
  cases directive? s with
  | none =>
    dsimp only
    split_ifs <;> simp [hdefining.symm, hwriting.symm, hcalling.symm]
  | some d => simpa using hd d

theorem doing?_eq_looping : doing? s = some .looping ↔ directive? s = some .forLoop := by
  rw [doing?_eq_iff (· = .forLoop) (by simp) fun d => by cases d <;> simp [Directive.doing?]]
  simp

theorem doing?_eq_stepping : doing? s = some .stepping ↔ directive? s = some .next := by
  rw [doing?_eq_iff (· = .next) (by simp) fun d => by cases d <;> simp [Directive.doing?]]
  simp

theorem doing?_eq_inlining : doing? s = some .inlining ↔ directive? s = some .asm := by
  rw [doing?_eq_iff (· = .asm) (by simp) fun d => by cases d <;> simp [Directive.doing?]]
  simp

theorem doing?_eq_including : doing? s = some .including ↔ directive? s = some .includeFile := by
  rw [doing?_eq_iff (· = .includeFile) (by simp) fun d => by cases d <;> simp [Directive.doing?]]
  simp

theorem doing?_eq_moving : doing? s = some .moving ↔ directive? s = some .clear ∨ directive? s = some .copyBlock := by
  rw [doing?_eq_iff (fun d => d = .clear ∨ d = .copyBlock) (by simp) fun d => by cases d <;> simp [Directive.doing?]]
  simp [and_or_left, exists_or]

theorem isStructural_of_turning (h : doing? s = some .turning) : ∃ d, directive? s = some d ∧ d.isStructural = true := by
  obtain ⟨d, hd, hturning⟩ := (doing?_eq_iff (·.doing? = some .turning) (by simp) fun _ => .rfl).mp h
  refine ⟨d, hd, ?_⟩
  cases d <;> first | rfl | cases hturning

/-- An iteration is ended only where lines are executed. -/
theorem isLive_of_stepping (h : doing? s = some .stepping) : s.walk.isLive = true :=
  (directive?_met (doing?_eq_stepping.mp h)).resolve_right (by decide)

/-- A statement that is no directive, or one that is passed over, leaves the walk as it
was. -/
theorem stays_statement (hd : directive? s = none) (hmay : ∀ doing, doing? s = some doing → may doing)
    (hs : on.Starts s.cursor) (hskip : on.Has s.cursor.skipStatement) : Stays env on may statement s := by
  refine wp_statement_of_none hd ⟨hskip, rfl, .refl s⟩ (fun hlive hassigns => ?_) fun hlive hassigns => ?_
  · have : Fact (may .defining) := ⟨hmay _ (by simp [doing?, hd, hlive, hassigns])⟩
    have : Fact (Doing.defining = .defining) := ⟨rfl⟩
    have hname := (Bool.and_eq_true_iff.mp hassigns).1
    refine Stays.after (Acts.stays .defining ?_ ?_ rfl) rfl (.refl s) fun _ _ h => h <;> exact acts_assignment hs hname
  · refine Stays.after ?_ rfl (.refl s) fun _ _ h => h
    refine stays_operation (fun hfind => hmay _ ?_) (fun hfind => hmay _ ?_) hs
    all_goals
      unfold doing?
      rw [hd]
      simp only [hlive, hassigns]
      rw [hfind]
      rfl

/-- **A statement does no more than deeds** of the kind that belongs to it. -/
theorem acts_statement (henv : env.KeepsTo on) (hmay : ∀ doing, doing? s = some doing → may doing)
    (hs : on.Starts s.cursor) (hskip : directive? s = none → on.Has s.cursor.skipStatement) : Acts env on may statement s := by
  cases hd : directive? s with
  | some d =>
    obtain ⟨spelling, hfind⟩ := find?_of_directive? hd
    apply wp_statement_directive hd hfind
    refine wp_imp ((acts_perform henv (fun doing hdoing => hmay doing ?_) hs hfind rfl).after (.refl s)) fun _ _ ht _ => ht
    rw [doing?, hd]
    exact hdoing
  | none =>
    exact wp_mono (stays_statement hd hmay hs (hskip hd)) (fun _ _ ht => ⟨ht.1, ht.2.2⟩) fun _ _ ht => ht.2

/-- The deeds of a statement, whether it ends or stops. -/
theorem deeds_statement : wp statement env s (fun _ t => s.Deeds env .whole (doing? s = some ·) t)
    fun _ t => s.Deeds env .whole (doing? s = some ·) t := by
  have hacts : Acts env .whole (doing? s = some ·) statement s :=
    acts_statement env.keepsTo_whole (fun _ h => h) trivial fun _ => trivial
  exact wp_mono hacts (fun _ _ ht => ht.2) fun _ _ ht => ht.deeds

theorem acts_statementsFrom (henv : env.KeepsTo on) (hon : ∀ c, on.Has c → on.Starts c) (steps : Nat)
    (hs : on.Has s.cursor) : Acts env on Doing.Any (statementsFrom steps) s := by
  induction steps generalizing s with
  | zero => exact ⟨hs, .refl s⟩
  | succ steps ih =>
    have hblanks : on.Has s.cursor.skipBlanks := on.further hs s.cursor.reaches_skipBlanks
    refine .step rfl rfl rfl (.step rfl rfl rfl (.ite (fun _ => ?_) fun _ => ⟨hblanks, .refl s⟩))
    have hskip : on.Has s.cursor.skipBlanks.skipStatement := on.further hblanks (Cursor.reaches_skip _ _)
    refine (acts_statement henv (fun _ _ => trivial) (hon _ hblanks) fun _ => hskip).bind fun _ t _ ht => ?_
    exact .ite (fun _ => ih ht) fun _ => ⟨ht, .refl t⟩

/-- A line does no more than deeds at places where statements may start. -/
theorem acts_statements (henv : env.KeepsTo on) (hon : ∀ c, on.Has c → on.Starts c) (hs : on.Has s.cursor) :
    Acts env on Doing.Any statements s := .step rfl rfl rfl (acts_statementsFrom henv hon _ hs)

theorem deeds_statementsFrom (steps : Nat) : wp (statementsFrom steps) env s (fun _ t => s.Deeds env .whole Doing.Any t)
    fun _ t => s.Deeds env .whole Doing.Any t :=
  wp_mono (acts_statementsFrom env.keepsTo_whole (fun _ _ => trivial) steps trivial) (fun _ _ ht => ht.2)
    fun _ _ ht => ht.deeds

theorem deeds_statements : wp statements env s (fun _ t => s.Deeds env .whole Doing.Any t)
    fun _ t => s.Deeds env .whole Doing.Any t := deeds_statementsFrom _

end
end LineM
end Asm6502
