/-
# Where bytes come from

For a byte of an assembly the chain of places starts with the statement that stored
it, and goes on with the macro calls whose lines were being executed, innermost first.
A file that is included adds nothing to the chain. Calls are numbered as they are noted,
and each refers to an earlier one, so a chain comes to an end.

Key theorems: `Visits.exists_stands`, `Meets.isLinked`, `Assembly.chainFrom_congr`,
`Assembly.chainFrom_of_stack`, `source_chain_follows_calls`.
-/
import Asm6502.Assembly.Query
import Asm6502.Proofs.Memory.Representation
import Asm6502.Proofs.Walk.Provenance

namespace Asm6502

open LineM

/-! ### Every state -/

section
variable {library : Library} {bound includes index n m : Nat} {a b : Allowance} {calls : List SourceLine}
  {s t : LineState} {w : Walk} {r : Run}

/-- A statement leaves a walk inside the calls that it stands in. -/
theorem Stands.statement (hs : Stands calls s.walk s.run)
    (hends : ∀ t, LineM.statement (.ofLine library a bound index) s.atStatement ≠ .error .exhausted t) :
    Stands calls (stateOf (LineM.statement (.ofLine library a bound index) s.atStatement)).walk
      (stateOf (LineM.statement (.ofLine library a bound index) s.atStatement)).run := by
  have hwalks (a : Allowance) (w : Walk) (r : Run) (result : Walk × Run) (calls : List SourceLine)
      (h : Asm6502.walk library bound a w r = some result) : ∃ es, Unfolds library calls (.walk bound a w r) es :=
    exists_unfolds_walk calls h
  obtain ⟨es, hes⟩ : ∃ es, Unfolds library calls (.statement bound index a s) es :=
    exists_unfolds_statement hwalks (fun _ _ _ hu => exists_unfolds_line hwalks hu calls) hends
  exact hs.of_proceeds (hes.isRecounted hs hends)

theorem Stands.statement_ok {goesOn : Bool} (hs : Stands calls s.walk s.run)
    (hrun : LineM.statement (.ofLine library a bound index) s.atStatement = .ok goesOn t) :
    Stands calls t.walk t.run := by
  have hstands := hs.statement fun u hu => by cases hrun.symm.trans hu
  rwa [hrun] at hstands

theorem LineState.GetsTo.stands (h : s.GetsTo library (runBufferWithin library bound) includes index n m t)
    (hs : Stands calls s.walk s.run) : Stands calls t.walk t.run := by
  induction h with
  | refl => exact hs
  | executes _ _ hrun ih => exact ih.statement_ok (a := ⟨includes, _⟩) hrun
  | inlines _ hopens ih =>
    have hstands := ih.of_proceeds (ih.proceeds_inlines hopens)
    exact hstands

theorem Stands.left (hs : Stands calls s.walk s.run) (bound index : Nat) (line : String) (record : Bool)
    (problem : Option Problem) :
    Stands calls (Stage.left bound index line record problem s).walk
      (Stage.left bound index line record problem s).run := by
  have hproceeds : Proceeds s [] s := ⟨.nil hs.linked rfl (.refl _) hs.run, rfl, hs.walk⟩
  exact (hproceeds.leave hs index line record problem).2

theorem Stage.Advances.stands {p q : Stage} (h : Stage.Advances library a p q) (hp : Stands calls p.walk p.run) :
    Stands calls q.walk q.run := by
  cases h with
  | enters => exact ⟨hp.linked, hp.stack, hp.run, hp.walk.buffer, hp.walk.capture⟩
  | @ends _ _ _ _ s => exact Stands.left (s := s.atStatement) hp _ _ _ _ _
  | executes hrest hrun => exact Stands.statement_ok hp hrun
  | rewinds hrest hrun => exact (Stands.statement_ok hp hrun).left _ _ _ _ _
  | fails hrest hrun =>
    unfold Stage.execute at hrun
    have hstands := Stands.statement hp fun u hu => by cases hrun.symm.trans hu
    rw [hrun] at hstands
    exact hstands.left _ _ _ _ _

/-- Wherever a walk leads, it stands inside calls that are noted. -/
theorem Visits.exists_stands {p : Stage} (h : Visits library a w r b p) (hstart : Stands calls w r) :
    ∃ calls', Stands calls' p.walk p.run := by
  induction h with
  | start => exact ⟨calls, hstart⟩
  | advances _ hstep ih =>
    obtain ⟨calls', hstands⟩ := ih
    exact ⟨calls', hstep.stands hstands⟩
  | nests _ _ hgets _ hasm hwaits ih =>
    obtain ⟨calls', hstands⟩ := ih
    have hbrings := (hgets.stands hstands).brings (hwaits.brings hasm) hasm fun c _ hc => Setting.answer_upTo c hc
    exact ⟨_, hbrings.2⟩

theorem Meets.isLinked (h : Meets library a w r b t) (hstart : Stands calls w r) : t.run.code.IsLinked := by
  obtain ⟨bound, index, line, record, s, n, hvisits, hgets⟩ := h
  obtain ⟨calls', hstands⟩ := hvisits.exists_stands hstart
  exact (hgets.stands hstands).linked

end

/-! ### Chains -/

namespace Assembly

variable {a : Assembly}

/-- A chain is not cut short by the number of its places. -/
theorem chainFrom_congr (hlinked : a.run.code.IsLinked) {k n m : Nat} {o : Origin}
    (hparent : ∀ p, o.parent = some p → p < k) (hn : k < n) (hm : k < m) :
    a.chainFrom n (some o) = a.chainFrom m (some o) := by
  induction k using Nat.strong_induction_on generalizing n m o with
  | _ k ih =>
    obtain ⟨n, rfl⟩ := Nat.exists_eq_succ_of_ne_zero (Nat.ne_zero_of_lt hn)
    obtain ⟨m, rfl⟩ := Nat.exists_eq_succ_of_ne_zero (Nat.ne_zero_of_lt hm)
    have hnone (i : Nat) : a.chainFrom i none = [] := by cases i <;> rfl
    rw [chainFrom, chainFrom]
    refine congrArg (_ ++ ·) ?_
    cases hp : o.parent with
    | none => rw [Option.bind_none, hnone, hnone]
    | some p =>
      have hlt := hparent p hp
      rw [Option.bind_some]
      cases hsite : a.run.code.callSite? p with
      | none => rw [hnone, hnone]
      | some outer => exact ih p hlt (fun p' hp' => hlinked.sites p outer p' hsite hp') (by omega) (by omega)

theorem locate_of_path {file line column : Nat} {path : Path} (h : a.run.files[file]? = some path) :
    a.locate ⟨file, line, column⟩ = some ⟨path, line, column⟩ := by
  unfold locate Run.filePath?
  rw [h]
  rfl

/-- A chain gives the calls around a place. -/
theorem chainFrom_of_stack {site : Option Nat} {calls : List SourceLine}
    (h : IsCallStack a.run.files a.run.code.callSites site calls) {n : Nat} (hn : ∀ p, site = some p → p < n) :
    (a.chainFrom n (site.bind a.run.code.callSite?)).map (fun l => (some l.path, l.line)) = calls := by
  induction h generalizing n with
  | nil => cases n <;> rfl
  | @cons i o path calls hsite hpath hbefore _ ih =>
    obtain ⟨n, rfl⟩ := Nat.exists_eq_succ_of_ne_zero (Nat.ne_zero_of_lt (hn i rfl))
    have hi : i ≤ n := Nat.le_of_lt_succ (hn i rfl)
    have hcall : a.run.code.callSite? i = some o := hsite
    rw [Option.bind_some, hcall, chainFrom, locate_of_path hpath, List.map_append, ih fun p hp => ?_]
    · rfl
    · exact Nat.lt_of_lt_of_le (hbefore p hp) hi

end Assembly

/-! ### Passes -/

section
variable {library : Library} {bound : Nat} {path : Path} {options : Options} {clock : Int} {ticket : Ticket}
  {generation : Nat}

theorem stands_mainWalk {r : Run} (h : r.Knows) (hfile : IsFile r.files 0) (text : String) (pass : Pass) :
    Stands [] (mainWalk 0 text) (r.beginPass pass) where
  linked := ObjectCode.isLinked_beginPass _ _ _
  stack := .nil
  run := h
  walk := ⟨hfile, fun c hc => by cases hc⟩

/-- What is known after a pass. -/
theorem recounts_runPass {r r' : Run} {text : String} {pass : Pass} (hs : Stands [] (mainWalk 0 text) (r.beginPass pass))
    (hrun : runPass library bound 0 text pass r = some r') : ∃ es, Recounts (r.beginPass pass) es r' := by
  obtain ⟨result, hwalk, rfl⟩ := Option.map_eq_some_iff.mp hrun
  obtain ⟨es, hes⟩ := exists_unfolds_walk [] hwalk
  exact ⟨es, hes.isRecounted hs result hwalk⟩

/-- Both passes begin outside all calls. -/
theorem PassBegins.stands {pass : Pass} {text : String} {r : Run}
    (h : PassBegins bound library path options clock ticket generation pass text r) :
    Stands [] (mainWalk 0 text) r := by
  have hfile : IsFile (Run.opened library path options clock ticket generation).files 0 := ⟨path, rfl⟩
  have hfirst (text : String) : Stands [] (mainWalk 0 text)
      ((Run.opened library path options clock ticket generation).beginPass .first) :=
    stands_mainWalk (fun name m hm => by cases hm) hfile text .first
  cases h with
  | first => exact hfirst text
  | second _ hrun =>
    obtain ⟨es, hrecounts⟩ := recounts_runPass (hfirst text) hrun
    exact stands_mainWalk hrecounts.knows (hfile.mono hrecounts.files) text .second

theorem PassBegins.used_eq_false {pass : Pass} {text : String} {r : Run}
    (h : PassBegins bound library path options clock ticket generation pass text r) (address : Nat) :
    (r.code.cell address).used = false := by
  cases h with
  | first => exact congrArg Cell.used (ObjectCode.cell_beginPass _ _ _ address)
  | second => exact congrArg Cell.used (ObjectCode.cell_beginPass _ _ _ address)

/-- A second pass begins in one way only. -/
theorem PassBegins.second_unique {text text' : String} {r r' : Run}
    (h : PassBegins bound library path options clock ticket generation .second text r)
    (h' : PassBegins bound library path options clock ticket generation .second text' r') : text = text' ∧ r = r' := by
  cases h with
  | second hread hfirst =>
    cases h' with
    | second hread' hfirst' =>
      obtain rfl : text = text' := by
        rw [hread] at hread'
        exact Except.ok.inj hread'
      rw [hfirst] at hfirst'
      cases hfirst'
      exact ⟨rfl, rfl⟩

/-- **The chain of a byte gives the statement that stored it and the macro calls around
it.** In every state that a pass gets to, an origin refers only to a call that was
noted, and a call only to one that was noted before it. So no chain is cut short by the
number of its places. Take the statements that the second pass of an assembly executes,
in order, and one of them that stores a byte at a free address, so that no later one
changes the cell by clearing or copying. The chain of the address gives the file and line
of that statement and then those of the macro calls whose lines it was among, innermost
first. A file that is included is not a call. Every byte in use at the end was stored in
this way, unless cells were cleared or copied over it. -/
theorem source_chain_follows_calls (bound : Nat) (library : Library) (path : Path) (options : Options) (clock : Int)
    (ticket : Ticket) (generation : Nat) :
    (∀ pass text r, PassBegins bound library path options clock ticket generation pass text r →
      (∀ b p, Visits library fullAllowance (mainWalk 0 text) r b p → p.run.code.IsLinked) ∧
      ∀ b t, Meets library fullAllowance (mainWalk 0 text) r b t → t.run.code.IsLinked) ∧
    ∀ a, (assembleWithin bound library path options clock ticket generation).result = .ok a →
      a.run.code.IsLinked ∧
      (∀ address n, a.run.code.callSites.size < n →
        a.chainFrom n (a.run.code.origin? address) = a.sourceChain address) ∧
      (∃ text r es, PassBegins bound library path options clock ticket generation .second text r ∧
        Unfolds library [] (.walk bound fullAllowance (mainWalk 0 text) r) es) ∧
      ∀ text r es, PassBegins bound library path options clock ticket generation .second text r →
        Unfolds library [] (.walk bound fullAllowance (mainWalk 0 text) r) es →
        (∀ address < memorySize, (a.run.code.cell address).used = true → Accounts es address) ∧
        ∀ earlier e later address, es = earlier ++ e :: later → e.Stores address →
          (∀ e' ∈ later, ¬ e'.Moves address) →
          (a.sourceChain address).map (fun l => (some l.path, l.line)) = e.place :: e.calls := by
  refine ⟨fun pass text r hbegins => ⟨fun b p hvisits => ?_, fun b t hmeets => ?_⟩, fun a hresult => ?_⟩
  · obtain ⟨calls, hstands⟩ := hvisits.exists_stands hbegins.stands
    exact hstands.linked
  · exact hmeets.isLinked hbegins.stands
  obtain ⟨text, r, result, hbegins, hwalk, hrun⟩ := exists_second_pass hresult
  obtain ⟨es, hes⟩ := exists_unfolds_walk [] hwalk
  have hlinked : a.run.code.IsLinked := by
    rw [← hrun]
    exact (hes.isRecounted hbegins.stands result hwalk).linked
  refine ⟨hlinked, fun address n hn => ?_, ⟨text, r, es, hbegins, hes⟩, fun text' r' es hbegins' hes => ?_⟩
  · unfold Assembly.sourceChain
    cases horigin : a.run.code.origin? address with
    | none => cases n <;> rfl
    | some o =>
      have haddress : address < memorySize ∧ (a.run.code.cell address).origin = some o := by
        unfold ObjectCode.origin? at horigin
        split_ifs at horigin with hinside
        exact ⟨hinside, horigin⟩
      exact Assembly.chainFrom_congr hlinked (fun p hp => hlinked.cells address haddress.1 o p haddress.2 hp) hn
        (Nat.lt_succ_self _)
  obtain ⟨rfl, rfl⟩ := hbegins.second_unique hbegins'
  have hrecounts := hes.isRecounted hbegins.stands result hwalk
  rw [hrun] at hrecounts
  refine ⟨fun address haddress hused => ?_, fun earlier e later address hsplit hstores hmoves => ?_⟩
  · refine (hrecounts.used address haddress hused).resolve_left fun hbefore => ?_
    rw [hbegins.used_eq_false] at hbefore
    cases hbefore
  · obtain ⟨-, o, path, horigin, hfile, hpath, hline, hstack⟩ :=
      hrecounts.stored address earlier e later hsplit hstores hmoves
    have hparent (p : Nat) (hp : o.parent = some p) : p < a.run.code.callSites.size := hstack.lt_size p hp
    have hcell : a.run.code.origin? address = some o := by
      unfold ObjectCode.origin?
      rw [if_pos hstores.inside, horigin]
    rw [Assembly.sourceChain, hcell, Assembly.chainFrom, Assembly.locate_of_path hfile, List.map_append,
      Assembly.chainFrom_of_stack hstack hparent, Executed.place, hpath, ← hline]
    rfl

end

theorem eq_some_getD {α : Type} {o : Option α} {d : α} (h : o.isSome = true) : o = some (o.getD d) :=
  (Option.getD_of_ne_none (Option.isSome_iff_ne_none.mp h) d).symm

/-- A byte that comes from a macro. -/
def chainSampleText : String := "MACRO m\nEQUB 1\nENDMACRO\nm"

def chainSample : Library := .ofFiles [(⟨"main"⟩, chainSampleText.toUTF8)]

namespace ChainSample

/-- The run after the first pass. -/
def first : Run :=
  (runPass chainSample 9 0 chainSampleText .first (.opened chainSample ⟨"main"⟩ ⟨[], 0, none⟩ 0 .never 0)).getD default

/-- The second pass before the line of the call. -/
def last : Walk × Run :=
  (Walk.afterLines chainSample fullAllowance 3 9 (mainWalk 0 chainSampleText) (first.beginPass .second)).getD default

/-- The line of the call. -/
def line : LineState := last.1.entering last.2 "m"

abbrev callSetting : Setting := .ofLine chainSample fullAllowance 5 last.1.next

def definition : Macro := (line.run.macros.get? line.atStatement.cursor.name.1).getD default

/-- The line of the call, inside the scope of the call. -/
def opened : LineState :=
  stateOf (changeWalk line.atStatement.cursor.column
    (fun w r => w.openScope r .expansion ⟨callSetting.index, line.atStatement.cursor.column⟩) callSetting
    ⟨line.atStatement.cursor.name.2, line.nodes, #[], line.walk, { line.run with
      macros := line.run.macros.addReference definition.name
        (line.walk.buffer.position callSetting.index line.atStatement.cursor.column) }⟩)

def lines : Call :=
  macroLines definition line.atStatement.cursor.column callSetting
    (stateOf (bindArguments definition.parameters callSetting opened))

/-- The walk over the lines of the macro. -/
def start : Walk := .start lines.buffer lines.frames

/-- The line of the macro. -/
def body : LineState := start.entering lines.run "EQUB 1"

abbrev bodySetting : Setting := .ofLine chainSample lines.allowance 4 start.next

/-- The walk over the lines of the macro after its line. -/
def finished : Walk × Run :=
  (start.stepLine chainSample (runBufferWithin chainSample 4) lines.allowance lines.run "EQUB 1").getD default

/-- The second pass after the line of the call. -/
def left : Walk × Run :=
  (last.1.stepLine chainSample (runBufferWithin chainSample 5) fullAllowance last.2 "m").getD default

/-- The byte is stored by the line of the macro. -/
def stores : Executed :=
  body.executed start.next (line.callsInside last.1.next []) (stateOf (statement bodySetting body.atStatement)).run.code

theorem runs_well :
    (runPass chainSample 9 0 chainSampleText .first (.opened chainSample ⟨"main"⟩ ⟨[], 0, none⟩ 0 .never 0)).isSome = true ∧
    (Walk.afterLines chainSample fullAllowance 3 9 (mainWalk 0 chainSampleText) (first.beginPass .second)).isSome = true ∧
    (line.run.macros.get? line.atStatement.cursor.name.1).isSome = true ∧
    succeeds () (changeWalk line.atStatement.cursor.column
      (fun w r => w.openScope r .expansion ⟨callSetting.index, line.atStatement.cursor.column⟩) callSetting
      ⟨line.atStatement.cursor.name.2, line.nodes, #[], line.walk, { line.run with
        macros := line.run.macros.addReference definition.name
          (line.walk.buffer.position callSetting.index line.atStatement.cursor.column) }⟩) = true ∧
    succeeds () (bindArguments definition.parameters callSetting opened) = true ∧
    (start.stepLine chainSample (runBufferWithin chainSample 4) lines.allowance lines.run "EQUB 1").isSome = true ∧
    (last.1.stepLine chainSample (runBufferWithin chainSample 5) fullAllowance last.2 "m").isSome = true ∧
    succeeds true (statement callSetting line.atStatement) = true ∧
    succeeds true (statement bodySetting body.atStatement) = true ∧
    (assembleWithin 9 chainSample ⟨"main"⟩ ⟨[], 0, none⟩ 0 .never 0).result.toOption.isSome = true := by decide +kernel

theorem first_eq :
    runPass chainSample 9 0 chainSampleText .first (.opened chainSample ⟨"main"⟩ ⟨[], 0, none⟩ 0 .never 0) = some first :=
  eq_some_getD runs_well.1

theorem last_eq :
    Walk.afterLines chainSample fullAllowance 3 9 (mainWalk 0 chainSampleText) (first.beginPass .second) = some last :=
  eq_some_getD runs_well.2.1

theorem finished_eq :
    start.stepLine chainSample (runBufferWithin chainSample 4) lines.allowance lines.run "EQUB 1" = some finished :=
  eq_some_getD runs_well.2.2.2.2.2.1

theorem left_eq :
    last.1.stepLine chainSample (runBufferWithin chainSample 5) fullAllowance last.2 "m" = some left :=
  eq_some_getD runs_well.2.2.2.2.2.2.1

theorem definition_eq : line.run.macros.get? line.atStatement.cursor.name.1 = some definition :=
  eq_some_getD runs_well.2.2.1

theorem opened_eq : changeWalk line.atStatement.cursor.column
    (fun w r => w.openScope r .expansion ⟨callSetting.index, line.atStatement.cursor.column⟩) callSetting
    ⟨line.atStatement.cursor.name.2, line.nodes, #[], line.walk, { line.run with
      macros := line.run.macros.addReference definition.name
        (line.walk.buffer.position callSetting.index line.atStatement.cursor.column) }⟩ = .ok () opened :=
  eq_ok_stateOf runs_well.2.2.2.1

attribute [irreducible] first last definition opened finished left

/-- The call brings in the lines of the macro. -/
theorem waits_lines : Waits lines statement callSetting line.atStatement := by
  have hfacts : line.atStatement.run.pass = .second ∧ line.atStatement.walk.isLive = true ∧
      line.atStatement.cursor.atAssignment = false ∧ Directive.find? line.atStatement.cursor.rest = none ∧
      Mnemonic.find? line.atStatement.cursor.rest line.atStatement.run.code.cpu = none ∧
      line.atStatement.cursor.atName = true := by decide +kernel
  obtain ⟨hsecond, hlive, hassignment, hfind, hmnemonic, hname⟩ := hfacts
  have hbind : bindArguments definition.parameters callSetting opened =
      .ok () (stateOf (bindArguments definition.parameters callSetting opened)) :=
    eq_ok_stateOf runs_well.2.2.2.2.1
  exact waits_statement_of_macro hsecond hlive hassignment hfind hmnemonic hname definition_eq opened_eq hbind

theorem start_eq : Walk.start lines.buffer lines.frames = start := rfl

theorem body_eq : start.entering lines.run "EQUB 1" = body := rfl

theorem line_eq : last.1.entering last.2 "m" = line := rfl

theorem stores_eq : [body.executed start.next (line.callsInside last.1.next [])
    (stateOf (statement bodySetting body.atStatement)).run.code] = [stores] := rfl

attribute [irreducible] line lines start body stores

/-- The walk over the lines of the macro executes its line. -/
theorem unfolds_body : Unfolds chainSample (line.callsInside last.1.next [])
    (.walk 5 lines.allowance (.start lines.buffer lines.frames) lines.run) [stores] := by
  have hfacts : start.buffer.lines[start.next]? = some "EQUB 1" ∧ lines.run.isCancelled = false ∧
      finished.1.buffer.lines[finished.1.next]? = none ∧ directive? body.atStatement ≠ some .asm ∧
      succeeds true (statement (.ofLine chainSample lines.allowance 0 start.next)
        body.atStatement) = true ∧
      body.cursor.skipBlanks.rest ≠ [] ∧
      (stateOf (statement bodySetting body.atStatement)).cursor.skipBlanks.rest = [] := by decide +kernel
  obtain ⟨hline, hgoesOn, hend, hasm, hquiet, hrest, hdone⟩ := hfacts
  have halone : IsAlone statement bodySetting body.atStatement := by
    refine isAlone_of_ends hasm fun t ht => ?_
    rw [ht] at hquiet
    cases hquiet
  have hbody : Unfolds chainSample (line.callsInside last.1.next [])
      (.line 4 start.next lines.allowance (start.entering lines.run "EQUB 1")) [stores] := by
    rw [body_eq, ← stores_eq]
    exact unfolds_line_single hrest (.alone hasm halone) (eq_ok_stateOf runs_well.2.2.2.2.2.2.2.2.1) hdone
  rw [start_eq, ← List.append_nil [stores]]
  exact .steps hline hgoesOn finished_eq hbody (.ended (.inl hend))

end ChainSample

open ChainSample in
theorem source_chain_follows_calls_macro :
    ∃ a, (assembleWithin 9 chainSample ⟨"main"⟩ ⟨[], 0, none⟩ 0 .never 0).result = .ok a ∧ stores.Stores 0 ∧
      (a.sourceChain 0).map (fun l => (some l.path, l.line)) = [(some ⟨"main"⟩, 1), (some ⟨"main"⟩, 3)] := by
  have hfacts : chainSample.readText ⟨"main"⟩ = .ok chainSampleText ∧ first.isCancelled = false ∧
      last.1.buffer.lines[last.1.next]? = some "m" ∧ last.2.isCancelled = false ∧
      left.1.buffer.lines[left.1.next]? = none ∧ directive? line.atStatement ≠ some .asm ∧
      line.cursor.skipBlanks.rest ≠ [] ∧
      (stateOf (statement callSetting line.atStatement)).cursor.skipBlanks.rest = [] ∧
      (stores.before.cell 0).used = false ∧ (stores.after.cell 0).used = true ∧
      stores.place :: stores.calls = [(some ⟨"main"⟩, 1), (some ⟨"main"⟩, 3)] := by decide +kernel
  obtain ⟨hread, hfirst, hline, hgoesOn, hend, hasm, hrest, hdone, hfree, hused, hplaces⟩ := hfacts
  have hbegins : PassBegins 9 chainSample ⟨"main"⟩ ⟨[], 0, none⟩ 0 .never 0 .second chainSampleText
      (first.beginPass .second) := .second hread first_eq hfirst
  have hcalled : Unfolds chainSample [] (.line 5 last.1.next fullAllowance
      (last.1.entering last.2 "m")) [line.executed last.1.next [] lines.run.code, stores] := by
    rw [line_eq]
    exact unfolds_line_single hrest (.call hasm waits_lines unfolds_body) (eq_ok_stateOf runs_well.2.2.2.2.2.2.2.1) hdone
  have hcall := Unfolds.steps hline hgoesOn left_eq hcalled (.ended (.inl hend))
  obtain ⟨earlier, hes⟩ := exists_unfolds_after last_eq hcall
  have hstores : stores.Stores 0 := ⟨by decide, by decide +kernel, hfree, hused⟩
  have hok := runs_well.2.2.2.2.2.2.2.2.2
  cases hresult : (assembleWithin 9 chainSample ⟨"main"⟩ ⟨[], 0, none⟩ 0 .never 0).result with
  | error e =>
    rw [hresult] at hok
    cases hok
  | ok a =>
    obtain ⟨-, hassembly⟩ := source_chain_follows_calls 9 chainSample ⟨"main"⟩ ⟨[], 0, none⟩ 0 .never 0
    obtain ⟨-, -, -, hchain⟩ := hassembly a hresult
    obtain ⟨-, hchain⟩ := hchain _ _ _ hbegins hes
    refine ⟨a, rfl, hstores, ?_⟩
    rw [hchain (earlier ++ [line.executed last.1.next [] lines.run.code]) stores [] 0 (by simp) hstores
      (fun e' he' => by cases he'), hplaces]

end Asm6502
