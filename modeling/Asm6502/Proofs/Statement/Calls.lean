/-
# The lines that a statement brings in

A statement runs other lines at most once, those of an included file or those of
a macro, and it is left with the run that they come to. What lines these are does not
depend on how lines are run: they are begun after deeds of the statement even where no
other lines do anything. They are nested deeper than the statement: an included file
leaves one less to include, and the lines of a macro have one more scope around them.

The statements of the text of an `ASM` count as statements of their own, so here
an `ASM` is left aside.

Key definitions: `Call.IsNested`, `LineM.Waits`, `LineM.Returns`, `LineM.BringsOnce`,
`Setting.upTo`.
Key theorems: `LineM.bringsOnce_statement`, `LineM.Waits.returns`, `LineM.Waits.brings`,
`LineM.Waits.isInside`.
-/
import Asm6502.Proofs.Statement.Composed
import Asm6502.Proofs.Statement.Effect

namespace Asm6502

/-- How the lines that a statement brings in are nested in those of the
statement. -/
inductive Call.IsNested (allowance : Allowance) (frames : List Frame) (depth : Depth) (x : Call) : Prop
  | file {includes evals : Nat} (hallowance : allowance = ⟨includes + 1, evals⟩)
      (hinner : x.allowance = ⟨includes, evals⟩) (hframes : x.frames = frames)
      (hdepth : x.run.depth = ⟨depth.includes + 1, depth.evals⟩)
  | expansion {f : Frame} (hinner : x.allowance = allowance) (hroom : frames.length < maxScopes)
      (hframes : x.frames = f :: frames) (hdepth : x.run.depth = depth)

/-- Whether lines are nested in those of a line, in a setting. -/
abbrev Call.IsInside (env : Setting) (s : LineState) : Call → Prop :=
  IsNested env.allowance s.walk.frames s.run.depth

theorem LineState.Brings.isNested {env : Setting} {on : Region} {may : Doing → Prop} {s : LineState} {w : Walk}
    {depth : Depth} {x : Call} (h : s.Brings env on may w depth x) : x.IsNested env.allowance w.frames depth := by
  cases h with
  | @expansion u own _ _ hx hwalk hdepth =>
    cases hx with
    | intro _ _ hown _ hroom =>
      have hframes : u.walk.frames = _ :: ({ u.walk with own } : Walk).frames := congrArg (· ++ u.walk.inherited) hown
      rw [hwalk, hdepth]
      rw [hframes, List.length_cons] at hroom
      exact .expansion rfl hroom hframes rfl
  | inclusion _ _ hx hwalk hdepth =>
    cases hx with
    | intro includes hincludes =>
      rw [hwalk, hdepth]
      have hallowance : env.allowance = ⟨includes + 1, env.allowance.evals⟩ := by rw [← hincludes]
      refine .file hallowance rfl rfl ?_
      rw [Run.inFile, Run.addFile_eq]

namespace LineM

variable {α β : Type} {env : Setting} {s t : LineState}

/-- Whether a step brings in no other lines. -/
structure IsAlone (m : LineM α) (env : Setting) (s : LineState) : Prop where
  congr : ∀ env', env.Agrees env' → m env' s = m env s
  ne_exhausted : ∀ t, m env s ≠ .error .exhausted t

/-- What a step comes to that waits for other lines. -/
def awaiting (before : LineState) (after : Run → EStateM.Result Stop LineState α) :
    Option Run → EStateM.Result Stop LineState α
  | none => .error .exhausted before
  | some r => after r

/-- What follows a step, whatever it came to. -/
def resume (f : β → LineM α) (env : Setting) : EStateM.Result Stop LineState β → EStateM.Result Stop LineState α
  | .ok b t => f b env t
  | .error stop t => .error stop t

theorem bind_eq_resume (x : LineM β) (f : β → LineM α) (env : Setting) (s : LineState) :
    (x >>= f) env s = resume f env (x env s) := by
  change EStateM.bind (x env) (fun b => f b env) s = _
  unfold EStateM.bind
  cases x env s <;> rfl

theorem andThen_eq_mapState (m : LineM α) (last : LineState → LineState) (env : Setting) (s : LineState) :
    m.andThen last env s = mapState last (m env s) := by
  unfold andThen
  cases m env s <;> rfl

/-- Whether a step brings in these lines and no others. -/
def Waits (x : Call) (m : LineM α) (env : Setting) (s : LineState) : Prop :=
  ∃ before after, (∀ r t, after r ≠ .error .exhausted t) ∧
    ∀ env', env.Agrees env' → m env' s = awaiting before after (env'.answer x)

/-- Whether a step that brings in lines is left with the run that they come to, but for
its depth. -/
def Returns (x : Call) (m : LineM α) (env : Setting) (s : LineState) : Prop :=
  ∀ env' r, env.Agrees env' → env'.answer x = some r → ∃ depth, (stateOf (m env' s)).run = { r with depth }

/-- Whether a step brings in other lines once at most, and keeps what they come to. -/
def BringsOnce (m : LineM α) (env : Setting) (s : LineState) : Prop :=
  IsAlone m env s ∨ ∃ x, Waits x m env s ∧ Returns x m env s

/-! ### Putting steps together -/

theorem IsLocal.isAlone {m : LineM α} (h : IsLocal m) : IsAlone m env s :=
  ⟨fun _ henv => h.congr henv, h.ne_exhausted env s⟩

theorem brings_of_isLocal {m : LineM α} (h : IsLocal m) : BringsOnce m env s := .inl h.isAlone

/-- Steps before the lines. -/
theorem IsAlone.waits_bind {x : LineM β} {f : β → LineM α} (hx : IsAlone x env s) {b : β} (hrun : x env s = .ok b t)
    {y : Call} (hf : Waits y (f b) env t) : Waits y (x >>= f) env s := by
  obtain ⟨before, after, hafter, hwaits⟩ := hf
  refine ⟨before, after, hafter, fun env' henv => ?_⟩
  rw [bind_of_ok ((hx.congr env' henv).trans hrun)]
  exact hwaits env' henv

theorem IsAlone.bind {x : LineM β} {f : β → LineM α} (hx : IsAlone x env s)
    (hf : ∀ b t, x env s = .ok b t → IsAlone (f b) env t) : IsAlone (x >>= f) env s := by
  have hresume (env' : Setting) (henv : env.Agrees env') : (x >>= f) env' s = resume f env' (x env s) := by
    rw [bind_eq_resume, hx.congr env' henv]
  refine ⟨fun env' henv => ?_, fun u => ?_⟩
  · rw [hresume env' henv, hresume env (.refl env)]
    cases hrun : x env s with
    | ok b t => exact (hf b t hrun).congr env' henv
    | error stop t => rfl
  · rw [hresume env (.refl env)]
    cases hrun : x env s with
    | ok b t => exact (hf b t hrun).ne_exhausted u
    | error stop t =>
      rintro ⟨⟩
      exact hx.ne_exhausted _ hrun

theorem IsAlone.brings_bind {x : LineM β} {f : β → LineM α} (hx : IsAlone x env s)
    (hf : ∀ b t, x env s = .ok b t → BringsOnce (f b) env t) : BringsOnce (x >>= f) env s := by
  cases hrun : x env s with
  | error stop t => exact .inl (hx.bind fun b u h => by rw [hrun] at h; cases h)
  | ok b t =>
    rcases hf b t hrun with hb | ⟨y, hwaits, hreturns⟩
    · refine .inl (hx.bind fun b' u h => ?_)
      rw [hrun] at h
      cases h
      exact hb
    · refine .inr ⟨y, hx.waits_bind hrun hwaits, fun env' r henv hr => ?_⟩
      rw [bind_of_ok ((hx.congr env' henv).trans hrun)]
      exact hreturns env' r henv hr

theorem resume_ne_exhausted {f : β → LineM α} (hf : ∀ b, IsLocal (f b)) {result : EStateM.Result Stop LineState β}
    (hresult : ∀ t, result ≠ .error .exhausted t) (t : LineState) : resume f env result ≠ .error .exhausted t := by
  cases result with
  | ok b u => exact (hf b).ne_exhausted env u t
  | error stop u =>
    rintro ⟨⟩
    exact hresult _ rfl

theorem mapState_ne_exhausted {last : LineState → LineState} {result : EStateM.Result Stop LineState α}
    (hresult : ∀ t, result ≠ .error .exhausted t) (t : LineState) : mapState last result ≠ .error .exhausted t := by
  cases result with
  | ok a u => rintro ⟨⟩
  | error stop u =>
    rintro ⟨⟩
    exact hresult u rfl

/-- Local steps after the lines do not change what is waited for. -/
theorem bind_of_awaiting {x : LineM β} {f : β → LineM α} (hf : ∀ b, IsLocal (f b)) {y : Call} {before : LineState}
    {after : Run → EStateM.Result Stop LineState β}
    (hx : ∀ env', env.Agrees env' → x env' s = awaiting before after (env'.answer y)) (env' : Setting)
    (henv : env.Agrees env') :
    (x >>= f) env' s = awaiting before (fun r => resume f env (after r)) (env'.answer y) := by
  rw [bind_eq_resume, hx env' henv]
  cases env'.answer y with
  | none => rfl
  | some r =>
    dsimp only [awaiting]
    cases after r with
    | ok b u => exact (hf b).congr henv
    | error stop u => rfl

theorem andThen_of_awaiting {m : LineM α} {last : LineState → LineState} {y : Call} {before : LineState}
    {after : Run → EStateM.Result Stop LineState α}
    (hm : ∀ env', env.Agrees env' → m env' s = awaiting before after (env'.answer y)) (env' : Setting)
    (henv : env.Agrees env') :
    m.andThen last env' s = awaiting (last before) (fun r => mapState last (after r)) (env'.answer y) := by
  rw [andThen_eq_mapState, hm env' henv]
  cases env'.answer y <;> rfl

theorem IsAlone.andThen {m : LineM α} {last : LineState → LineState} (hm : IsAlone m env s) :
    IsAlone (m.andThen last) env s := by
  refine ⟨fun env' henv => ?_, fun t => ?_⟩
  · rw [andThen_eq_mapState, andThen_eq_mapState, hm.congr env' henv]
  · rw [andThen_eq_mapState]
    exact mapState_ne_exhausted hm.ne_exhausted t

/-- Steps after the lines. -/
theorem Waits.bind {x : LineM β} {f : β → LineM α} {y : Call} (hx : Waits y x env s) (hf : ∀ b, IsLocal (f b)) :
    Waits y (x >>= f) env s := by
  obtain ⟨before, after, hafter, hwaits⟩ := hx
  exact ⟨before, _, fun r => resume_ne_exhausted hf (hafter r), bind_of_awaiting hf hwaits⟩

theorem Waits.andThen {m : LineM α} {last : LineState → LineState} {y : Call} (hm : Waits y m env s) :
    Waits y (m.andThen last) env s := by
  obtain ⟨before, after, hafter, hwaits⟩ := hm
  exact ⟨last before, _, fun r => mapState_ne_exhausted (hafter r), andThen_of_awaiting hwaits⟩

theorem BringsOnce.bind {x : LineM β} {f : β → LineM α} (hx : BringsOnce x env s) (hf : ∀ b, IsLocal (f b))
    (hkeeps : ∀ b env t, (stateOf (f b env t)).run = t.run) : BringsOnce (x >>= f) env s := by
  rcases hx with hx | ⟨y, hwaits, hreturns⟩
  · exact hx.brings_bind fun b t _ => brings_of_isLocal (hf b)
  · refine .inr ⟨y, hwaits.bind hf, fun env' r henv hr => ?_⟩
    obtain ⟨depth, hdepth⟩ := hreturns env' r henv hr
    refine ⟨depth, ?_⟩
    rw [bind_eq_resume, ← hdepth]
    cases x env' s with
    | ok b t => exact hkeeps b env' t
    | error stop t => rfl

theorem BringsOnce.andThen {m : LineM α} {last : LineState → LineState} (hm : BringsOnce m env s)
    (hlast : ∀ t : LineState, ∃ depth, (last t).run = { t.run with depth }) : BringsOnce (m.andThen last) env s := by
  rcases hm with hm | ⟨y, hwaits, hreturns⟩
  · exact .inl hm.andThen
  · refine .inr ⟨y, hwaits.andThen, fun env' r henv hr => ?_⟩
    obtain ⟨depth, hdepth⟩ := hreturns env' r henv hr
    obtain ⟨depth', hdepth'⟩ := hlast (stateOf (m env' s))
    refine ⟨depth', ?_⟩
    rw [hdepth] at hdepth'
    rw [andThen_eq_mapState, ← hdepth']
    cases m env' s <;> rfl

theorem isAlone_read {f : Setting → LineM α} (hf : ∀ env', env.Agrees env' → f env' = f env)
    (h : IsAlone (f env) env s) : IsAlone (read >>= f) env s :=
  ⟨fun env' henv => (congrArg (· env' s) (hf env' henv)).trans (h.congr env' henv), h.ne_exhausted⟩

theorem brings_read {f : Setting → LineM α} (hf : ∀ env', env.Agrees env' → f env' = f env)
    (h : BringsOnce (f env) env s) : BringsOnce (read >>= f) env s := by
  rcases h with h | ⟨y, ⟨before, after, hafter, hwaits⟩, hreturns⟩
  · exact .inl (isAlone_read hf h)
  · have hrun (env' : Setting) (henv : env.Agrees env') : (read >>= f) env' s = f env env' s :=
      congrArg (· env' s) (hf env' henv)
    refine .inr ⟨y, ⟨before, after, hafter, fun env' henv => (hrun env' henv).trans (hwaits env' henv)⟩, ?_⟩
    intro env' r henv hr
    rw [hrun env' henv]
    exact hreturns env' r henv hr

theorem runBuffer_eq {allowance : Allowance} {buffer : Buffer} {frames : List Frame} (env : Setting) :
    runBuffer allowance buffer frames env s =
      awaiting s (fun run => .ok () { s with run }) (env.answer ⟨allowance, buffer, frames, s.run⟩) := by
  unfold runBuffer Setting.answer
  cases env.runBuffer allowance buffer frames s.run <;> rfl

theorem waits_runBuffer {allowance : Allowance} {buffer : Buffer} {frames : List Frame} :
    Waits ⟨allowance, buffer, frames, s.run⟩ (runBuffer allowance buffer frames) env s :=
  ⟨s, _, fun r t => by rintro ⟨⟩, fun env' _ => runBuffer_eq env'⟩

theorem brings_runBuffer {allowance : Allowance} {buffer : Buffer} {frames : List Frame} :
    BringsOnce (runBuffer allowance buffer frames) env s := by
  refine .inr ⟨_, waits_runBuffer, fun env' r _ hr => ?_⟩
  rw [runBuffer_eq, hr]
  exact ⟨r.depth, rfl⟩

/-! ### Files -/

theorem isAlone_readFile {path : Path} {column : Nat} : IsAlone (readFile path column) env s := by
  have hnote (interruptions : Nat → Nat) : IsAlone (modifyRun (·.noteRead interruptions)) env s :=
    ⟨fun _ _ => rfl, fun _ => by rintro ⟨⟩⟩
  refine isAlone_read (fun env' henv => by rw [henv.library]) ((hnote _).bind fun _ t _ => ?_)
  split <;> exact IsLocal.isAlone inferInstance

theorem brings_includeBytes {start : Nat} : BringsOnce (includeBytes start) env s := by
  refine (IsLocal.isAlone inferInstance).brings_bind fun argument t _ => ?_
  refine (IsLocal.isAlone inferInstance).brings_bind fun name t _ => ?_
  refine (IsLocal.isAlone inferInstance).brings_bind fun _ t _ => ?_
  refine (IsLocal.isAlone inferInstance).brings_bind fun path t _ => ?_
  exact isAlone_readFile.brings_bind fun bytes t _ => brings_of_isLocal inferInstance

theorem brings_includeFile {start : Nat} : BringsOnce (includeFile start) env s := by
  refine (IsLocal.isAlone inferInstance).brings_bind fun argument t _ => ?_
  refine (IsLocal.isAlone inferInstance).brings_bind fun name t _ => ?_
  refine (IsLocal.isAlone inferInstance).brings_bind fun _ t _ => ?_
  refine (IsLocal.isAlone inferInstance).brings_bind fun walk t _ => ?_
  by_cases hloop : walk.inLoop = true
  · rw [if_pos hloop]
    exact (IsLocal.isAlone inferInstance).brings_bind fun _ _ hfail => by cases hfail
  rw [if_neg hloop]
  refine brings_read (fun env' henv => by rw [henv.allowance]) ?_
  split
  · exact brings_of_isLocal inferInstance
  rename_i includes evals _
  refine (IsLocal.isAlone inferInstance).brings_bind fun path u _ => ?_
  refine isAlone_readFile.brings_bind fun bytes u _ => ?_
  split
  · exact brings_of_isLocal inferInstance
  rename_i contents _
  change BringsOnce (do
    let file ← addFile path
    included (runBuffer ⟨includes, evals⟩ (.ofText file contents 0 walk.buffer.callSite) walk.frames)) env u
  refine (IsLocal.isAlone inferInstance).brings_bind fun file v _ => ?_
  refine (IsLocal.isAlone (isLocal_modifyRun fun _ _ => rfl)).brings_bind fun _ v _ => ?_
  exact brings_runBuffer.andThen fun _ => ⟨_, rfl⟩

/-! ### Macros -/

theorem brings_expand {m : Macro} {start : Nat} : BringsOnce (expand m start) env s := by
  refine brings_read (fun env' henv => by rw [henv.index, henv.allowance]) ?_
  refine (IsLocal.isAlone inferInstance).brings_bind fun walk t _ => ?_
  refine (IsAlone.mk (fun _ _ => rfl) fun _ => by rintro ⟨⟩).brings_bind fun r t _ => ?_
  exact (IsLocal.isAlone inferInstance).brings_bind fun _ t _ => brings_runBuffer

theorem brings_macroCall {m : Macro} {start : Nat} : BringsOnce (macroCall m start) env s := by
  have hopen (t : LineState) : BringsOnce (do
      let spot ← spot start
      changeWalk start fun w r => w.openScope r .expansion spot
      andThen (do bindArguments m.parameters; expand m start) fun s =>
        { s with
          walk := s.walk.closeExpansion
          nodes := s.nodes.push (.mk .macroCall m.name start s.parts.toList) }) env t := by
    refine (IsLocal.isAlone inferInstance).brings_bind fun spot t _ => ?_
    refine (IsLocal.isAlone inferInstance).brings_bind fun _ t _ => .andThen ?_ fun u => ⟨u.run.depth, rfl⟩
    exact (IsLocal.isAlone inferInstance).brings_bind fun _ t _ => brings_expand
  refine (IsLocal.isAlone inferInstance).brings_bind fun second t _ => ?_
  by_cases hsecond : second = true
  · rw [if_pos hsecond]
    refine (IsLocal.isAlone inferInstance).brings_bind fun position t _ => ?_
    exact (IsLocal.isAlone (isLocal_modifyRun fun _ _ => rfl)).brings_bind fun _ t _ => hopen t
  · rw [if_neg hsecond]
    exact hopen t

/-- The lines of a macro that is called from a column of a line. -/
def macroLines (m : Macro) (start : Nat) (env : Setting) (s : LineState) : Call where
  allowance := env.allowance
  buffer := .ofText m.definedAt.file m.body (m.definedAt.line + 1) (some s.run.code.callSites.size)
  frames := s.walk.frames
  run := { s.run with code := (s.run.code.pushCallSite (s.walk.buffer.origin env.index start)).2 }

theorem waits_expand {m : Macro} {start : Nat} : Waits (macroLines m start env s) (expand m start) env s := by
  obtain ⟨before, after, hafter, hwaits⟩ : Waits (macroLines m start env s)
      (runBuffer env.allowance (macroLines m start env s).buffer s.walk.frames) env
      { s with run := (macroLines m start env s).run } := waits_runBuffer
  refine ⟨before, after, hafter, fun env' henv => ?_⟩
  rw [← hwaits env' henv, ← henv.allowance]
  unfold macroLines
  rw [← henv.index]
  rfl

/-- In the second pass a macro call brings in the lines of the macro once the call is
noted as a use, its scope is open and its arguments are bound. -/
theorem waits_macroCall {m : Macro} {start : Nat} {u v : LineState} (hsecond : s.run.pass = .second)
    (hopen : changeWalk start (fun w r => w.openScope r .expansion ⟨env.index, start⟩) env
      { s with run.macros := s.run.macros.addReference m.name (s.walk.buffer.position env.index start) } = .ok () u)
    (hbind : bindArguments m.parameters env u = .ok () v) : Waits (macroLines m start env v) (macroCall m start) env s := by
  have hpass : isSecondPass env s = .ok true s := by
    change EStateM.Result.ok (s.run.pass == .second) s = _
    rw [hsecond]
    rfl
  refine (IsLocal.isAlone inferInstance).waits_bind hpass ?_
  rw [if_pos rfl]
  refine (IsLocal.isAlone inferInstance).waits_bind (x := position start) rfl ?_
  refine (IsLocal.isAlone (isLocal_modifyRun fun _ _ => rfl)).waits_bind rfl ?_
  refine (IsLocal.isAlone inferInstance).waits_bind (x := spot start) rfl ?_
  refine (IsLocal.isAlone inferInstance).waits_bind hopen (.andThen ?_)
  exact (IsLocal.isAlone inferInstance).waits_bind hbind waits_expand

/-! ### Statements -/

/-- All other directives keep to their line. -/
theorem isLocal_perform {d : Directive} {start : Nat} (hfile : d ≠ .includeFile) (hbytes : d ≠ .includeBytes)
    (hasm : d ≠ .asm) : IsLocal (perform d start) := by
  cases d
  case includeFile => exact absurd rfl hfile
  case includeBytes => exact absurd rfl hbytes
  case asm => exact absurd rfl hasm
  all_goals
    unfold perform
    infer_instance

theorem brings_perform {d : Directive} {start : Nat} (hd : d ≠ .asm) : BringsOnce (perform d start) env s := by
  by_cases hfile : d = .includeFile
  · rw [hfile]
    exact brings_includeFile
  by_cases hbytes : d = .includeBytes
  · rw [hbytes]
    exact brings_includeBytes
  exact brings_of_isLocal (isLocal_perform hfile hbytes hd)

theorem brings_directive {spelling : String} {d : Directive} (hd : d ≠ .asm) :
    BringsOnce (directive spelling d) env s := by
  refine (IsLocal.isAlone inferInstance).brings_bind fun start t _ => ?_
  refine (IsLocal.isAlone inferInstance).brings_bind fun _ t _ => ?_
  refine (brings_perform hd).bind (fun _ => inferInstance) fun _ _ _ => ?_
  split <;> rfl

theorem brings_operation : BringsOnce operation env s := by
  refine (IsLocal.isAlone inferInstance).brings_bind fun cursor t _ => ?_
  refine (IsAlone.mk (fun _ _ => rfl) fun _ => by rintro ⟨⟩).brings_bind fun r t _ => ?_
  dsimp only
  split
  · exact brings_of_isLocal inferInstance
  by_cases hname : (!cursor.atName) = true
  · rw [if_pos hname]
    exact (IsLocal.isAlone inferInstance).brings_bind fun _ _ hfail => by cases hfail
  rw [if_neg hname]
  refine (IsLocal.isAlone inferInstance).brings_bind fun _ t _ => ?_
  split
  · exact brings_macroCall
  · exact brings_of_isLocal inferInstance

theorem directive?_of_find? {spelling : String} {d : Directive} (hassignment : ¬ s.cursor.atAssignment = true)
    (hfind : Directive.find? s.cursor.rest = some (spelling, d))
    (hexecuted : (s.walk.isLive || d.isStructural) = true) : directive? s = some d := by
  unfold directive?
  rw [if_neg hassignment]
  simp only [hfind]
  exact if_pos hexecuted

/-- A statement other than an `ASM` brings in other lines once at most. -/
theorem bringsOnce_statement (hasm : directive? s ≠ some .asm) : BringsOnce statement env s := by
  refine (IsLocal.isAlone (isLocal_modify fun _ _ => rfl)).brings_bind fun _ t hclear => ?_
  cases hclear
  refine (IsLocal.isAlone inferInstance).brings_bind fun cursor t hcursor => ?_
  cases hcursor
  refine (IsLocal.isAlone inferInstance).brings_bind fun walk t hwalk => ?_
  cases hwalk
  by_cases hassignment : s.cursor.atAssignment = true
  · rw [if_pos hassignment]
    exact brings_of_isLocal inferInstance
  rw [if_neg hassignment]
  split
  · rename_i spelling d hfind
    by_cases hexecuted : (s.walk.isLive || d.isStructural) = true
    · rw [if_pos hexecuted]
      have hother : d ≠ .asm := fun h => hasm (h ▸ directive?_of_find? hassignment hfind hexecuted)
      exact (brings_directive hother).bind (fun _ => inferInstance) fun _ _ _ => rfl
    · rw [if_neg hexecuted]
      exact brings_of_isLocal inferInstance
  · by_cases hlive : s.walk.isLive = true
    · rw [if_pos hlive]
      exact brings_operation.bind (fun _ => inferInstance) fun _ _ _ => rfl
    · rw [if_neg hlive]
      exact brings_of_isLocal inferInstance

/-- A macro call in the second pass as a statement. -/
theorem waits_statement_of_macro {m : Macro} {u v : LineState} (hsecond : s.run.pass = .second)
    (hlive : s.walk.isLive = true) (hassignment : s.cursor.atAssignment = false)
    (hfind : Directive.find? s.cursor.rest = none) (hmnemonic : Mnemonic.find? s.cursor.rest s.run.code.cpu = none)
    (hname : s.cursor.atName = true) (hm : s.run.macros.get? s.cursor.name.1 = some m)
    (hopen : changeWalk s.cursor.column (fun w r => w.openScope r .expansion ⟨env.index, s.cursor.column⟩) env
      ⟨s.cursor.name.2, s.nodes, #[], s.walk, { s.run with
        macros := s.run.macros.addReference m.name (s.walk.buffer.position env.index s.cursor.column) }⟩ = .ok () u)
    (hbind : bindArguments m.parameters env u = .ok () v) :
    Waits (macroLines m s.cursor.column env v) statement env s := by
  have hcall : Waits (macroLines m s.cursor.column env v) operation env { s with parts := #[] } := by
    refine (IsLocal.isAlone inferInstance).waits_bind (x := getCursor) rfl ?_
    refine (IsAlone.mk (fun _ _ => rfl) fun _ => by rintro ⟨⟩).waits_bind (x := getRun) rfl ?_
    dsimp only
    rw [hmnemonic]
    dsimp only
    rw [hname, if_neg (by decide)]
    refine (IsLocal.isAlone inferInstance).waits_bind (x := setCursor s.cursor.name.2) rfl ?_
    rw [hm]
    exact waits_macroCall (s := ⟨s.cursor.name.2, s.nodes, #[], s.walk, s.run⟩) hsecond hopen hbind
  refine (IsLocal.isAlone (isLocal_modify fun _ _ => rfl)).waits_bind rfl ?_
  refine (IsLocal.isAlone inferInstance).waits_bind (x := getCursor) rfl ?_
  refine (IsLocal.isAlone inferInstance).waits_bind (x := getWalk) rfl ?_
  dsimp only
  rw [hassignment, hfind, hlive, if_neg (by decide)]
  exact hcall.bind fun _ => inferInstance

end LineM

/-! ### What comes before the lines -/

open Classical in
/-- A setting in which some lines do not come to an end and all others do nothing. -/
noncomputable def Setting.upTo (env : Setting) (x : Call) : Setting := { env with
  runBuffer := fun allowance buffer frames r => if Call.mk allowance buffer frames r = x then none else some r
  runText := fun _ => throw (.problem ⟨.tooManyEvals, 0⟩) }

namespace Setting
variable {env : Setting} {x : Call}

theorem answer_upTo (y : Call) {r : Run} (h : (env.upTo x).answer y = some r) : r = y.run := by
  dsimp only [answer, upTo] at h
  split_ifs at h
  exact (Option.some.inj h).symm

theorem answer_upTo_eq_none (y : Call) : (env.upTo x).answer y = none ↔ y = x := by
  dsimp only [answer, upTo]
  split_ifs with h <;> simpa using h

theorem isTame_upTo : (env.upTo x).IsTame :=
  ⟨fun _ _ _ _ _ hrun => congrArg Run.depth (answer_upTo ⟨_, _, _, _⟩ hrun), fun _ s => .refl s⟩

end Setting

namespace LineM
variable {env : Setting} {s : LineState} {x : Call}

theorem Waits.exists_exhausted (h : Waits x statement env s) : ∃ t, statement (env.upTo x) s = .error .exhausted t := by
  obtain ⟨before, after, -, hwaits⟩ := h
  refine ⟨before, ?_⟩
  rw [hwaits (env.upTo x) ⟨rfl, rfl, rfl⟩, (Setting.answer_upTo_eq_none x).mpr rfl]
  rfl

/-- What a statement waits for are the only lines that it brings in, so it is left with
the run that they come to. -/
theorem Waits.returns (h : Waits x statement env s) (hasm : directive? s ≠ some .asm) : Returns x statement env s := by
  obtain ⟨t, hrun⟩ := h.exists_exhausted
  have honce : BringsOnce statement env s := bringsOnce_statement hasm
  rcases honce with halone | ⟨y, ⟨before, after, hafter, hwaits⟩, hreturns⟩
  · rw [halone.congr (env.upTo x) ⟨rfl, rfl, rfl⟩] at hrun
    exact absurd hrun (halone.ne_exhausted t)
  · rw [hwaits (env.upTo x) ⟨rfl, rfl, rfl⟩] at hrun
    cases hanswer : (env.upTo x).answer y with
    | none => rwa [← (Setting.answer_upTo_eq_none y).mp hanswer]
    | some r =>
      rw [hanswer] at hrun
      exact absurd hrun (hafter r t)

/-- The lines that a statement waits for are begun after deeds of the statement. -/
theorem Waits.brings (h : Waits x statement env s) (hasm : directive? s ≠ some .asm) :
    s.Brings (env.upTo x) .whole (doing? s = some ·) s.walk s.run.depth x := by
  obtain ⟨t, hrun⟩ := h.exists_exhausted
  have hstops : s.Stops (env.upTo x) .whole (doing? s = some ·) .exhausted t :=
    of_wp_error (acts_statement (Setting.isTame_upTo.keepsTo _) (fun _ h => h) trivial fun _ => trivial) hrun
  have hdepth : t.run.depth = s.run.depth := (hstops.deeds.comes Setting.isTame_upTo fun _ => trivial).depth
  obtain hinlining | ⟨y, hbrings, hnone⟩ := hstops.awaits rfl
  · exact absurd (doing?_eq_inlining.mp hinlining) hasm
  · obtain rfl := (Setting.answer_upTo_eq_none y).mp hnone
    rw [← hdepth]
    rwa [show t.walk = s.walk from ?_] at hbrings
    cases hd : directive? s with
    | none =>
      have hstays : Stays (env.upTo y) .whole Doing.Any statement s := stays_statement hd (fun _ _ => trivial) trivial trivial
      exact (of_wp_error hstays hrun).1
    | some d =>
      have hd' : d.doing? = some .including := by
        cases hbrings with
        | expansion hmay | inclusion hmay =>
          unfold doing? at hmay
          rw [hd] at hmay
          cases d <;> simp_all [Directive.doing?]
      refine hstops.deeds.walk_eq fun doing hdoing => ?_
      unfold doing? at hdoing
      rw [hd] at hdoing
      cases hd'.symm.trans hdoing
      rfl

/-- The lines that a statement waits for are nested deeper. -/
theorem Waits.isInside (h : Waits x statement env s) (hasm : directive? s ≠ some .asm) : x.IsInside env s :=
  (h.brings hasm).isNested

end LineM
end Asm6502
