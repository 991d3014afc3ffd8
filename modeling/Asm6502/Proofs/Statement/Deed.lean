/-
# What statements are made of

Whatever a statement does to the walk and to the run, and whether it succeeds or
stops half-way, it does by deeds that are known one by one: it evaluates an
expression, changes the object code, defines a name, opens or closes a block, or
runs other lines. So what each deed keeps is kept by all statements and by all
their errors.

Expressions and names stand at places of the line; a `Region` says which places
these may be. Some kinds of deeds are left to a few statements, so it is said along
with the deeds which of these kinds there may be.

Key definitions: `Region`, `Doing`, `ObjectCode.Admits`, `Deed`, `LineState.Deeds`.
Key theorems: `Deed.walk_eq`, `LineState.Deeds.keeps`, `LineState.Deeds.resembles`.
-/
import Asm6502.Line
import Asm6502.Proofs.Memory.Leftover
import Asm6502.Proofs.Scope.Moment
import Asm6502.Proofs.Statement.Execution

namespace Asm6502

/-- Places of a line, and among them those where a statement begins. -/
structure Region where
  Has : Cursor → Prop
  Starts : Cursor → Prop
  further : ∀ {c d : Cursor}, Has c → c.Reaches d → Has d
  past : ∀ {c : Cursor}, Starts c → Has (c.skip 1)

/-- All places. -/
def Region.whole : Region := ⟨fun _ => True, fun _ => True, fun _ _ => trivial, fun _ => trivial⟩

/-- The places after the first character of a statement. -/
def Region.after (c : Cursor) : Region where
  Has := (c.skip 1).Reaches
  Starts := (· = c)
  further := .trans
  past h := h ▸ .refl _

/-- What a statement has read is more than its first character. -/
theorem Region.has_skip (on : Region) {c : Cursor} (h : on.Starts c) {n : Nat} (hn : 0 < n) : on.Has (c.skip n) :=
  on.further (on.past h) (c.reaches_skip_of_pos hn)

/-- Kinds of deeds that only some statements do. -/
inductive Doing
  /-- Bytes are written. -/
  | writing
  /-- Memory is cleared or copied. -/
  | moving
  /-- A name is given a value. -/
  | defining
  /-- A brace is opened or closed. -/
  | scoping
  /-- A loop is begun. -/
  | looping
  /-- An iteration is ended. -/
  | stepping
  /-- A conditional or the definition of a macro goes on. -/
  | turning
  /-- The lines of a macro are run. -/
  | calling
  /-- The lines of a file are run. -/
  | including
  /-- The text of an `ASM` is executed. -/
  | inlining

/-- All kinds. -/
def Doing.Any (_ : Doing) : Prop := True

/-- No kind. -/
def Doing.None (_ : Doing) : Prop := False

/-- Whether what is done of a kind leaves the walk as it is. -/
def Doing.isStill : Doing → Bool
  | .writing | .moving | .defining | .including => true
  | .scoping | .looping | .stepping | .turning | .calling | .inlining => false

/-- Whether origins differ at most in their columns. -/
def Origin.Alongside (o p : Origin) : Prop := o.file = p.file ∧ o.line = p.line ∧ o.parent = p.parent

/-- Whether a statement with the origin `p` may change object code like this. -/
def ObjectCode.Admits (may : Doing → Prop) (p : Origin) (code : ObjectCode) : Action → Prop
  | .operation (.write _ origin) => may .writing ∧ origin.Alongside p
  | .operation (.clear _ _) => may .moving
  | .operation (.setPc pc) => pc ≤ memorySize
  | .operation (.advance _) => True
  | .operation (.setGuard _) => True
  | .copy _ _ _ => may .moving
  | .set callSites _ _ => callSites = code.callSites ∨
      may .calling ∧ ∃ o : Origin, o.Alongside p ∧ callSites = code.callSites.push o

/-- Where the name of a label stands whose point has been read. -/
def Cursor.labelName (c : Cursor) : Cursor := c.skip (LineM.Promotion.ofMark c.peek).mark.length

/-- Whether a label comes to such symbols: the first pass adds it, a later one finds
it as it was. -/
def Run.Places (r : Run) (full : String) (p : Position) (symbols : SymbolTable) : Prop :=
  r.pass = .first ∧ r.symbols.add? full (.ofNat r.code.pc) true (some p) = some symbols ∨
    symbols = r.symbols ∧ LineM.relabelFault? r.symbols full (.ofNat r.code.pc) p = none

/-- Whether an expression at the cursor leaves the state of evaluation like this. -/
def LineM.Leaves (env : Setting) (s : LineState) (after : Expr.State) : Prop :=
  (∃ e, Expr.evaluate (context env s) env.allowance.evals s.cursor (evaluation s) = .ok e after) ∨
    ∃ problem, Expr.evaluate (context env s) env.allowance.evals s.cursor (evaluation s) = .error problem after

/-- An expression looks at most names up. -/
theorem LineM.Leaves.follows {env : Setting} {s : LineState} {after : Expr.State} (h : Leaves env s after) :
    s.run.Follows s.walk.frames (evaluated s after).run := by
  have hfollows : Expr.Follows (context env s) (evaluation s) after := by
    obtain ⟨e, he⟩ | ⟨problem, he⟩ := h
    · exact Expr.evaluate_follows he
    · exact Expr.evaluate_error_follows he
  exact ⟨rfl, rfl, rfl, rfl, fun _ => rfl, hfollows.symbols, hfollows.history⟩

/-- A line inside the text of an `ASM`. -/
def LineState.inText (s : LineState) : LineState :=
  { s with run := { s.run with history := .inlined :: s.run.history, depth.evals := s.run.depth.evals + 1 } }

/-- A run behind the text of an `ASM`. -/
def Run.leaveText (r : Run) : Run := { r with depth.evals := r.depth.evals - 1 }

/-- A run inside a file that it includes, which has a number. -/
def Run.inFile (r : Run) (path : Path) : Run :=
  { (r.addFile path).2 with depth.includes := (r.addFile path).2.depth.includes + 1 }

/-- A run behind a file that it has included. -/
def Run.leaveFile (r : Run) : Run := { r with depth.includes := r.depth.includes - 1 }

/-- The lines of a macro that is called at a call site. -/
def Macro.lines (m : Macro) (site : Nat) : Buffer :=
  .ofText m.definedAt.file m.body (m.definedAt.line + 1) (some site)

/-- Lines to be run, and what they are run in. -/
structure Call where
  allowance : Allowance
  buffer : Buffer
  frames : List Frame
  run : Run

/-- What lines come to. -/
def Setting.answer (env : Setting) (x : Call) : Option Run :=
  env.runBuffer x.allowance x.buffer x.frames x.run

theorem Frame.isLoop_of_isExpansion {f : Frame} (h : f.isExpansion = true) : f.isLoop = false := by
  unfold Frame.isExpansion at h
  unfold Frame.isLoop
  cases hkind : f.kind <;> simp_all

/-- Whether lines are those of a macro, in the scope of its call. `own` are the other
scopes of the walk. -/
inductive Call.IsExpansion (env : Setting) (w : Walk) (r : Run) (own : List Frame) : Call → Prop
  | intro {f : Frame} {name : String} {m : Macro} (site start : Nat) (hown : w.own = f :: own) (hf : f.isExpansion = true)
      (hroom : w.frames.length ≤ maxScopes) (hm : r.macros.get? name = some m)
      (hsite : r.code.callSites[site]? = some (w.buffer.origin env.index start)) :
      IsExpansion env w r own ⟨env.allowance, m.lines site, w.frames, r⟩

/-- Whether lines are those of a file that is included. -/
inductive Call.IsInclusion (env : Setting) (w : Walk) (r : Run) : Call → Prop
  | intro {path : Path} {contents : String} (includes : Nat) (hincludes : env.allowance.includes = includes + 1)
      (htext : env.library.readText path = .ok contents) :
      IsInclusion env w r ⟨⟨includes, env.allowance.evals⟩,
        .ofText (r.addFile path).1 contents 0 w.buffer.callSite, w.frames, r.inFile path⟩

/-- What a statement does at a time to the walk and the run of its line. The places of
expressions and names are of the region, and deeds of the special kinds only those
that may be. -/
inductive Deed (env : Setting) (on : Region) (may : Doing → Prop) : Walk × Run → Walk × Run → Prop
  /-- An expression is evaluated, as far as it gets. -/
  | evaluated (s : LineState) {after : Expr.State} (hplace : on.Has s.cursor) (hleaves : LineM.Leaves env s after) :
      Deed env on may (s.walk, s.run) (s.walk, (LineM.evaluated s after).run)
  /-- Nothing is done that a statement looks at again, but for what it draws. -/
  | idled {w : Walk} {r : Run} (random : Random) (links : Array Link) (printed : Array String)
      (lookups : Array (Path × String)) (reads generation : Nat) :
      Deed env on may (w, r) (w, { r with random, links, printed, lookups, reads, generation })
  | coded {w : Walk} {r : Run} (action : ObjectCode.Action)
      (hadmits : r.code.Admits may (w.buffer.origin env.index 0) action) :
      Deed env on may (w, r) (w, { r with code := r.code.after action })
  | saved {w : Walk} {r : Run} {save : Save} (hstart : save.start ≤ save.stop) (hstop : save.stop ≤ memorySize) :
      Deed env on may (w, r) (w, { r with saves := r.saves.push save })
  | processor {w : Walk} {r : Run} (hmay : may .defining) (value : Value) :
      Deed env on may (w, r) (w, { r with symbols := r.symbols.change "CPU" value })
  /-- A label is placed, in some of the open scopes. -/
  | labelled {w : Walk} {r : Run} {c : Cursor} {spelling : String} {outer : List Frame} {symbols : SymbolTable}
      (hmay : may .defining) (hplace : on.Starts c) (hfind : Directive.find? c.rest = some (spelling, .label))
      (houter : outer <:+ w.frames)
      (hplaces : r.Places (fullName (c.skip spelling.length).labelName.name.1 outer)
        (w.buffer.position env.index (c.skip spelling.length).labelName.column) symbols) :
      Deed env on may (w, r) (w, { r with
        symbols
        history := .placed r.pass (fullName (c.skip spelling.length).labelName.name.1 outer) r.code.pc :: r.history })
  /-- An assignment defines its name. -/
  | assigned {w : Walk} {r : Run} {c : Cursor} (hmay : may .defining) (hplace : on.Starts c) (hname : c.atName = true)
      (hnew : r.symbols.get? (fullName c.name.1 w.frames) = none) (value : Value) :
      Deed env on may (w, r) (w, { r with
        symbols := r.symbols.add (fullName c.name.1 w.frames) value false (some (w.buffer.position env.index c.column)) })
  /-- An assignment changes what was defined at its own place. -/
  | reassigned {w : Walk} {r : Run} {c : Cursor} {symbol : Symbol} (hmay : may .defining) (hplace : on.Starts c)
      (hname : c.atName = true) (hsymbol : r.symbols.get? (fullName c.name.1 w.frames) = some symbol)
      (hsame : symbol.definedAt = some (w.buffer.position env.index c.column)) (value : Value) :
      Deed env on may (w, r) (w, { r with symbols := r.symbols.change (fullName c.name.1 w.frames) value })
  /-- A brace or a macro call opens a scope. -/
  | opened {w w' : Walk} {r r' : Run} {kind : FrameKind} {spot : Spot}
      (hmay : kind = .brace ∧ may .scoping ∨ kind = .expansion ∧ may .calling)
      (hopen : w.openScope r kind spot = .ok (w', r')) :
      Deed env on may (w, r) (w', r')
  /-- A brace or a macro call is closed. -/
  | closed {w : Walk} {r : Run} {f : Frame} {own : List Frame} (hmay : may .scoping ∨ may .calling)
      (hown : w.own = f :: own) (hf : f.isLoop = false) : Deed env on may (w, r) ({ w with own }, r)
  /-- A loop is begun that goes on where a statement ends. -/
  | looped {w w' : Walk} {r r' : Run} {l : Loop} {spot : Spot} {c : Cursor} (hmay : may .looping) (hplace : on.Has c)
      (hend : c.atStatementEnd = true) (hname : IsPlain l.name) (hresume : l.resume = ⟨env.index, c.column⟩)
      (hstart : w.startLoop r l spot = .ok (w', r')) : Deed env on may (w, r) (w', r')
  | stepped {w w' : Walk} {r r' : Run} (hmay : may .stepping) (hstep : w.stepLoop r = .ok (w', r')) :
      Deed env on may (w, r) (w', r')
  /-- A branch is turned to. -/
  | turned {w : Walk} {r : Run} {conditionals : List Conditional} (hmay : may .turning)
      (hsame : Conditional.SameMacros w.conditionals conditionals) :
      Deed env on may (w, r) ({ w with conditionals }, r)
  /-- The definition of a macro begins. Its lines are captured in the first pass only. -/
  | begun {w w' : Walk} {r : Run} {definition : Option Macro} {column : Nat} (hmay : may .turning)
      (hdefinition : ∀ m ∈ definition, r.pass = .first ∧ ∃ name nameColumn parameters,
        m = { Macro.ofHeader name (w.buffer.position env.index nameColumn) with parameters } ∧
          ∀ parameter ∈ parameters, IsPlain parameter)
      (hstart : w.startMacro definition ⟨env.index, column⟩ = .ok w') : Deed env on may (w, r) (w', r)
  /-- The definition of a macro ends. If its lines were captured, there is the macro. -/
  | ended {w w' : Walk} {r : Run} {definition : Option Macro} (hmay : may .turning)
      (hend : w.endMacro = .ok (definition, w')) :
      Deed env on may (w, r) (w', { r with macros := definition.elim r.macros r.macros.add })
  /-- The call of a macro is noted. -/
  | referenced {w : Walk} {r : Run} (hmay : may .calling) (name : String) (p : Position) :
      Deed env on may (w, r) (w, { r with macros := r.macros.addReference name p })
  /-- The parameter of a macro that is called loses its value in the scope that was
  opened last. -/
  | released {w : Walk} {r : Run} {f : Frame} {own : List Frame} {name parameter : String} {m : Macro}
      (hmay : may .calling) (hown : w.own = f :: own) (hf : f.isExpansion = true) (hlast : f.id = r.lastScope)
      (hm : r.macros.get? name = some m) (hparameter : parameter ∈ m.parameters) :
      Deed env on may (w, r) (w, { r with symbols := r.symbols.erase (fullName parameter w.frames) })
  /-- The parameter of a macro that is called gets the value of its argument. -/
  | given {w : Walk} {r : Run} {f : Frame} {own : List Frame} {name parameter : String} {m : Macro}
      (hmay : may .calling) (hown : w.own = f :: own) (hf : f.isExpansion = true) (hm : r.macros.get? name = some m)
      (hparameter : parameter ∈ m.parameters) (value : Value) :
      Deed env on may (w, r) (w, { r with symbols := r.symbols.add (fullName parameter w.frames) value false none })
  /-- The lines of a macro are run in the scope of its call, which ends with them. -/
  | ran {w : Walk} {r r' : Run} {own : List Frame} {x : Call} (hmay : may .calling) (hx : x.IsExpansion env w r own)
      (hrun : env.answer x = some r') : Deed env on may (w, r) ({ w with own }, r')
  /-- A file gets a number. -/
  | added {w : Walk} {r : Run} (path : Path) : Deed env on may (w, r) (w, (r.addFile path).2)
  /-- The lines of a file are run one level deeper. -/
  | included {w : Walk} {r r' : Run} {x : Call} (hmay : may .including) (hx : x.IsInclusion env w r)
      (hrun : env.answer x = some r') : Deed env on may (w, r) (w, r'.leaveFile)
  /-- The text of an `ASM` is executed, which has an argument. -/
  | inlined (s : LineState) {c : Cursor} {spelling text : String} (hmay : may .inlining) (hplace : on.Starts c)
      (hfind : Directive.find? c.rest = some (spelling, .asm)) (hrest : c.rest.drop spelling.length ≠ [])
      (hcursor : on.Has s.cursor) (hevals : env.allowance.evals ≠ 0) :
      Deed env on may (s.walk, s.run)
        ((LineM.stateOf (env.runText text s.inText)).walk, (LineM.stateOf (env.runText text s.inText)).run.leaveText)

/-- A state of a line after deeds. -/
def LineState.Deeds (env : Setting) (on : Region) (may : Doing → Prop) (s t : LineState) : Prop :=
  Relation.ReflTransGen (Deed env on may) (s.walk, s.run) (t.walk, t.run)

/-- Whether lines are brought in after deeds, by a statement that is left with the walk
`w` when they do not end. -/
inductive LineState.Brings (env : Setting) (on : Region) (may : Doing → Prop) (s : LineState) (w : Walk) (depth : Depth)
    (x : Call) : Prop
  | expansion {u : LineState} {own : List Frame} (hmay : may .calling) (hdeeds : s.Deeds env on may u)
      (hx : x.IsExpansion env u.walk u.run own) (hwalk : w = { u.walk with own }) (hdepth : depth = u.run.depth)
  | inclusion {u : LineState} (hmay : may .including) (hdeeds : s.Deeds env on may u)
      (hx : x.IsInclusion env u.walk u.run) (hwalk : w = u.walk) (hdepth : depth = u.run.depth)

/-- Where a statement stops after deeds. It is beyond the bound on lines only where the
lines that it brings in are, or a text. -/
structure LineState.Stops (env : Setting) (on : Region) (may : Doing → Prop) (s : LineState) (stop : Stop)
    (t : LineState) : Prop where
  deeds : s.Deeds env on may t
  awaits : stop = .exhausted → may .inlining ∨ ∃ x, s.Brings env on may t.walk t.run.depth x ∧ env.answer x = none

section
variable {env : Setting} {on : Region} {may : Doing → Prop} {s t u : LineState}

namespace LineState

theorem Deeds.refl (s : LineState) : s.Deeds env on may s := Relation.ReflTransGen.refl

theorem Deeds.trans (h : s.Deeds env on may t) (h' : t.Deeds env on may u) : s.Deeds env on may u :=
  Relation.ReflTransGen.trans h h'

theorem Deeds.tail (h : s.Deeds env on may t) (hdeed : Deed env on may (t.walk, t.run) (u.walk, u.run)) :
    s.Deeds env on may u := Relation.ReflTransGen.tail h hdeed

theorem Stops.after {stop : Stop} (h : t.Stops env on may stop u) (hst : s.Deeds env on may t) :
    s.Stops env on may stop u := by
  refine ⟨hst.trans h.deeds, fun hstop => (h.awaits hstop).imp_right ?_⟩
  rintro ⟨x, hbrings, hx⟩
  refine ⟨x, ?_, hx⟩
  cases hbrings with
  | expansion hmay hdeeds hx hwalk hdepth => exact .expansion hmay (hst.trans hdeeds) hx hwalk hdepth
  | inclusion hmay hdeeds hx hwalk hdepth => exact .inclusion hmay (hst.trans hdeeds) hx hwalk hdepth

/-- A problem is no bound on lines. -/
theorem Stops.of {p : Problem} (h : s.Deeds env on may t) : s.Stops env on may (.problem p) t :=
  ⟨h, by rintro ⟨⟩⟩

theorem Stops.ne_exhausted {stop : Stop} (h : s.Stops env on Doing.None stop t) : stop ≠ .exhausted := by
  intro hstop
  obtain hmay | ⟨x, ⟨hmay, -⟩ | ⟨hmay, -⟩, -⟩ := h.awaits hstop <;> exact hmay

/-- What each deed keeps is kept. -/
theorem Deeds.keeps {P : Walk → Run → Prop} (h : s.Deeds env on may t)
    (hdeed : ∀ x y, Deed env on may x y → P x.1 x.2 → P y.1 y.2) (hs : P s.walk s.run) : P t.walk t.run := by
  have hpath : ∀ y, Relation.ReflTransGen (Deed env on may) (s.walk, s.run) y → P y.1 y.2 := by
    intro y hy
    induction hy with
    | refl => exact hs
    | tail _ hy ih => exact hdeed _ _ hy ih
  exact hpath _ h

/-- What comes of each deed comes of all, if it can be put together. -/
theorem Deeds.relates {R : Walk × Run → Walk × Run → Prop} (h : s.Deeds env on may t) (hrefl : ∀ x, R x x)
    (htrans : ∀ x y z, R x y → R y z → R x z) (hdeed : ∀ x y, Deed env on may x y → R x y) :
    R (s.walk, s.run) (t.walk, t.run) := by
  have hpath : ∀ y, Relation.ReflTransGen (Deed env on may) (s.walk, s.run) y → R (s.walk, s.run) y := by
    intro y hy
    induction hy with
    | refl => exact hrefl _
    | tail _ hy ih => exact htrans _ _ _ ih (hdeed _ _ hy)
  exact hpath _ h

end LineState

/-- Without a block, a call or a text the walk stays as it is. -/
theorem Deed.walk_eq {x y : Walk × Run} (h : Deed env on may x y) (hstill : ∀ doing, may doing → doing.isStill = true) :
    y.1 = x.1 := by
  cases h with
  | opened hmay => rcases hmay with ⟨-, hmay⟩ | ⟨-, hmay⟩ <;> cases hstill _ hmay
  | closed hmay => rcases hmay with hmay | hmay <;> cases hstill _ hmay
  | looped hmay | stepped hmay | turned hmay | begun hmay | ended hmay | ran hmay | inlined _ hmay => cases hstill _ hmay
  | _ => rfl

theorem LineState.Deeds.walk_eq (h : s.Deeds env on may t) (hstill : ∀ doing, may doing → doing.isStill = true) :
    t.walk = s.walk :=
  h.relates (R := fun x y => y.1 = x.1) (fun _ => rfl) (fun _ _ _ h h' => h'.trans h) fun _ _ h => h.walk_eq hstill

/-- Conditionals and what is captured change where something is turned to or a text is
executed, and the walk goes back where an iteration ends besides. -/
theorem Deed.conditionals_eq {x y : Walk × Run} (h : Deed env on may x y) (hturning : ¬ may .turning)
    (hinlining : ¬ may .inlining) : y.1.conditionals = x.1.conditionals ∧ y.1.capture = x.1.capture ∧
      (¬ may .stepping → y.1.rewound = x.1.rewound) := by
  cases h with
  | turned hmay | begun hmay | ended hmay => exact absurd hmay hturning
  | inlined _ hmay => exact absurd hmay hinlining
  | opened _ hopen =>
    obtain ⟨rfl, -⟩ := Walk.eq_of_openScope hopen
    exact ⟨rfl, rfl, fun _ => rfl⟩
  | looped _ _ _ _ _ hstart =>
    obtain ⟨rfl, -⟩ := Walk.eq_of_startLoop hstart
    exact ⟨rfl, rfl, fun _ => rfl⟩
  | stepped hmay hstep =>
    obtain ⟨f, own, l, -, -, ⟨rfl, -⟩ | ⟨l', -, rfl, -⟩⟩ := Walk.eq_of_stepLoop hstep
    · exact ⟨rfl, rfl, fun _ => rfl⟩
    · exact ⟨rfl, rfl, fun hstepping => absurd hmay hstepping⟩
  | _ => exact ⟨rfl, rfl, fun _ => rfl⟩

theorem LineState.Deeds.conditionals_eq (h : s.Deeds env on may t) (hturning : ¬ may .turning)
    (hinlining : ¬ may .inlining) : t.walk.conditionals = s.walk.conditionals ∧ t.walk.capture = s.walk.capture ∧
      (¬ may .stepping → t.walk.rewound = s.walk.rewound) :=
  h.relates (R := fun x y => y.1.conditionals = x.1.conditionals ∧ y.1.capture = x.1.capture ∧
      (¬ may .stepping → y.1.rewound = x.1.rewound)) (fun _ => ⟨rfl, rfl, fun _ => rfl⟩)
    (fun _ _ _ h h' => ⟨h'.1.trans h.1, h'.2.1.trans h.2.1, fun hmay => (h'.2.2 hmay).trans (h.2.2 hmay)⟩)
    fun _ _ h => h.conditionals_eq hturning hinlining

/-- Whether a line is left as it was but for what is looked up, written or drawn. -/
structure LineState.Resembles (s t : LineState) : Prop where
  walk : t.walk = s.walk
  macros : t.run.macros = s.run.macros
  depth : t.run.depth = s.run.depth
  lastScope : t.run.lastScope = s.run.lastScope
  symbols : s.run.symbols.Alike t.run.symbols

/-- Without any of the special kinds little is done. -/
theorem LineState.Deeds.resembles (h : s.Deeds env on Doing.None t) : s.Resembles t := by
  have hkept := h.relates (R := fun x y => y.1 = x.1 ∧ y.2.macros = x.2.macros ∧ y.2.depth = x.2.depth ∧
      y.2.lastScope = x.2.lastScope ∧ x.2.symbols.Alike y.2.symbols)
    (fun _ => ⟨rfl, rfl, rfl, rfl, .refl _⟩) (fun _ _ _ h h' => ⟨h'.1.trans h.1, h'.2.1.trans h.2.1,
      h'.2.2.1.trans h.2.2.1, h'.2.2.2.1.trans h.2.2.2.1, h.2.2.2.2.trans h'.2.2.2.2⟩) ?_
  · exact ⟨hkept.1, hkept.2.1, hkept.2.2.1, hkept.2.2.2.1, hkept.2.2.2.2⟩
  · intro x y hdeed
    refine ⟨hdeed.walk_eq fun _ h => absurd h id, ?_⟩
    cases hdeed with
    | evaluated s hplace hleaves => exact ⟨rfl, rfl, rfl, hleaves.follows.symbols⟩
    | opened hmay => exact (hmay.elim And.right And.right).elim
    | processor hmay | labelled hmay | assigned hmay | reassigned hmay | ended hmay | referenced hmay | released hmay
    | given hmay | ran hmay | included hmay | inlined _ hmay | looped hmay | stepped hmay => exact absurd hmay id
    | added path =>
      dsimp only [Run.addFile]
      split <;> exact ⟨rfl, rfl, rfl, .refl _⟩
    | _ => exact ⟨rfl, rfl, rfl, .refl _⟩

end
end Asm6502
