/-
# The branches of a conditional

A conditional is met from its `IF` over any `ELIF` and an `ELSE` to its `ENDIF`.
Each of them but the last begins a branch, which ends where the next one is met.
What stands in a branch is any text: statements that raise problems, loops, macro
definitions, further conditionals. The directives of the conditional itself are
those that are met when everything opened in the branch is closed again.

At most one branch is executed: the first whose condition holds, or that of the
`ELSE`, and none where statements are not executed around the conditional.
A branch that is not executed leaves everything alone but what is shown of it,
and conditions after the branch that is executed are passed over.

Key definitions: `Stage.BranchStep`, `Stage.Branch`, `Stage.IsConditional`,
`Stage.Branch.Behaves`.
Key theorems: `Walk.Turn.suffix`, `Walk.Turn.idle`, `Stage.BranchPath.suffix`,
`Stage.BranchPath.idle`, `Stage.conditional_executes_first`.
-/
import Asm6502.Proofs.Statement.Structure

namespace Asm6502

/-- The directives that go on with a conditional or close it. -/
def Directive.goesOn : Directive → Bool
  | .elifBlock | .elseBlock | .endif => true
  | _ => false

/-- What is shown of a run apart, it is the same. -/
def Run.IsKept (r r' : Run) : Prop := ∃ reports trees, r' = { r with reports, trees }

theorem Run.IsKept.refl (r : Run) : r.IsKept r := ⟨r.reports, r.trees, rfl⟩

theorem Run.IsKept.trans {r r' r'' : Run} (h : r.IsKept r') (h' : r'.IsKept r'') : r.IsKept r'' := by
  obtain ⟨_, _, rfl⟩ := h
  obtain ⟨reports, trees, rfl⟩ := h'
  exact ⟨reports, trees, rfl⟩

namespace Conditional

/-- Open conditionals of which the innermost is an `IF`. -/
def IsBlock (block : List Conditional) : Prop := ∃ f frames, block = f :: frames ∧ f.isMacro = false

theorem allTrue_append (inner block : List Conditional) :
    allTrue (inner ++ block) = (allTrue inner && allTrue block) := List.all_append

theorem suffix_of_length_lt {block frames : List Conditional} {f : Conditional} (h : block <:+ f :: frames)
    (hlength : block.length < (f :: frames).length) : block <:+ frames := by
  rcases List.suffix_cons_iff.mp h with rfl | hframes
  · exact absurd hlength (Nat.lt_irrefl _)
  · exact hframes

end Conditional

open Conditional

/-! ### Turns inside a branch -/

namespace Walk

variable {block : List Conditional} {w w' : Walk} {r r' : Run} {d : Directive}

theorem Turn.frames_eq (h : Turn w r d w' r') : w'.frames = w.frames := by
  cases h <;> rfl

/-- Inside a branch the conditional of the branch is not touched. -/
theorem Turn.suffix (h : Turn w r d w' r') (hblock : IsBlock block) (hw : block <:+ w.conditionals)
    (hinner : d.goesOn = true → block.length < w.conditionals.length) : block <:+ w'.conditionals := by
  cases h with
  | keeps => exact hw
  | opens => exact hw.trans (List.suffix_cons _ _)
  | changes hd hframes =>
    have hlength : block.length < w.conditionals.length := hinner (by rcases hd with rfl | rfl <;> rfl)
    rw [hframes] at hw hlength
    exact (suffix_of_length_lt hw hlength).trans (List.suffix_cons _ _)
  | closes hframes =>
    have hlength : block.length < w.conditionals.length := hinner rfl
    rw [hframes] at hw hlength
    exact suffix_of_length_lt hw hlength
  | defines => exact hw.trans (List.suffix_cons _ _)
  | ends hframes hf =>
    -- the frame of a macro is not that of the branch
    obtain ⟨g, frames, rfl, hg⟩ := hblock
    rw [hframes] at hw
    rcases List.suffix_cons_iff.mp hw with heq | hinside
    · obtain ⟨rfl, -⟩ := List.cons.inj heq
      rw [hf] at hg
      cases hg
    · exact hinside

/-- A walk inside a branch that is not executed. A macro that is defined in such a
branch is not captured. -/
def IsIdle (block : List Conditional) (w : Walk) : Prop :=
  ∃ inner, w.conditionals = inner ++ block ∧ (inner.any Conditional.isMacro = true → w.capture = none)

theorem IsIdle.isLive_eq (h : w.IsIdle block) (hfalse : allTrue block = false) : w.isLive = false := by
  obtain ⟨inner, hinner, -⟩ := h
  rw [isLive, hinner, allTrue_append, hfalse, Bool.and_false]

/-- Inside a branch that is not executed a turn changes nothing but the
conditionals opened in it. -/
theorem Turn.idle (h : Turn w r d w' r') (hblock : IsBlock block) (hfalse : allTrue block = false)
    (hw : w.IsIdle block) (hinner : d.goesOn = true → block.length < w.conditionals.length) :
    w'.IsIdle block ∧ r' = r := by
  have hdead : w.isLive = false := hw.isLive_eq hfalse
  obtain ⟨inner, hframes, hcapture⟩ := hw
  -- what is left of the conditionals opened in the branch when the innermost is closed
  have hrest {f : Conditional} {frames : List Conditional} (hw : w.conditionals = f :: frames)
      (hlength : block.length < w.conditionals.length) :
      ∃ rest, inner = f :: rest ∧ frames = rest ++ block := by
    cases inner with
    | nil =>
      rw [hframes] at hlength
      exact absurd hlength (Nat.lt_irrefl _)
    | cons g rest =>
      obtain ⟨rfl, rfl⟩ := List.cons.inj (hframes.symm.trans hw)
      exact ⟨rest, rfl, rfl⟩
  cases h with
  | keeps => exact ⟨⟨inner, hframes, hcapture⟩, rfl⟩
  | @opens f r' hf hrun =>
    refine ⟨⟨f :: inner, by rw [hframes, List.cons_append], fun hmacro => hcapture ?_⟩, hrun hdead⟩
    simpa [hf] using hmacro
  | @changes d f f' frames r' hd hw hf hrun =>
    obtain ⟨rest, rfl, rfl⟩ := hrest hw (hinner (by rcases hd with rfl | rfl <;> rfl))
    have houter : w.isOuterLive = false := by
      rw [isOuterLive, outerTrue, hw, List.tail_cons, allTrue_append, hfalse, Bool.and_false]
    refine ⟨⟨f' :: rest, rfl, fun hmacro => hcapture ?_⟩, hrun houter⟩
    have hrest : rest.any Conditional.isMacro = true := by simpa [hf] using hmacro
    rw [List.any_cons, hrest, Bool.or_true]
  | closes hw =>
    obtain ⟨rest, rfl, rfl⟩ := hrest hw (hinner rfl)
    refine ⟨⟨rest, rfl, fun hmacro => hcapture ?_⟩, rfl⟩
    rw [List.any_cons, hmacro, Bool.or_true]
  | @defines f capture hf hcapture' =>
    exact ⟨⟨f :: inner, by rw [hframes, List.cons_append], fun _ => hcapture' hdead⟩, rfl⟩
  | @ends f frames r' hw hf hrun =>
    cases inner with
    | nil =>
      obtain ⟨g, frames', rfl, hg⟩ := hblock
      obtain ⟨rfl, -⟩ := List.cons.inj (hframes.symm.trans hw)
      rw [hf] at hg
      cases hg
    | cons g rest =>
      obtain ⟨rfl, rfl⟩ := List.cons.inj (hframes.symm.trans hw)
      exact ⟨⟨rest, rfl, fun _ => rfl⟩, hrun (hcapture (by rw [List.any_cons, hf, Bool.true_or]))⟩

end Walk

/-! ### Statements inside a branch -/

namespace LineM

variable {env : Setting} {s : LineState} {block : List Conditional}

theorem isStructural_of_dead {d : Directive} (h : directive? s = some d) (hdead : s.walk.isLive = false) :
    d.isStructural = true := by
  unfold directive? at h
  split_ifs at h
  split at h
  · split_ifs at h with hmet
    obtain rfl := Option.some.inj h
    simpa [hdead] using hmet
  · cases h

/-- A statement in a branch does not touch the conditional of the branch. -/
theorem suffix_statement (hblock : IsBlock block) (hs : block <:+ s.walk.conditionals)
    (hasm : directive? s ≠ some .asm)
    (hinner : ∀ d, directive? s = some d → d.goesOn = true → block.length < s.walk.conditionals.length) :
    wp statement env s (fun _ t => block <:+ t.walk.conditionals) fun _ t => block <:+ t.walk.conditionals := by
  have hkept {t : LineState} (ht : t.walk.conditionals = s.walk.conditionals) : block <:+ t.walk.conditionals := by
    rw [ht]
    exact hs
  cases hd : directive? s with
  | none =>
    exact wp_mono (walk_statement hd) (fun _ _ ht => hkept (congrArg Walk.conditionals ht.1))
      fun _ _ ht => hkept (congrArg Walk.conditionals ht.1)
  | some d =>
    by_cases hstructural : d.isStructural = true
    · exact wp_mono (turn_statement hd hstructural) (fun _ _ ht => ht.suffix hblock hs (hinner d hd))
        fun _ _ ht => ht.suffix hblock hs (hinner d hd)
    · have hdoing : doing? s ≠ some .turning ∧ doing? s ≠ some .inlining := by
        rw [doing?_of_directive? hd]
        cases d with
        | asm => exact absurd hd hasm
        | _ => first | exact absurd rfl hstructural | exact ⟨by rintro ⟨⟩, by rintro ⟨⟩⟩
      exact wp_mono (conditionals_statement hdoing.1 hdoing.2) (fun _ _ ht => hkept ht.1) fun _ _ ht => hkept ht.1

/-- A statement in a branch that is not executed leaves scopes and run as they
are. -/
theorem idle_statement (hblock : IsBlock block) (hfalse : allTrue block = false)
    (hs : s.walk.IsIdle block)
    (hinner : ∀ d, directive? s = some d → d.goesOn = true → block.length < s.walk.conditionals.length) :
    wp statement env s (fun _ t => t.walk.IsIdle block ∧ t.walk.frames = s.walk.frames ∧ t.run = s.run)
      fun _ t => t.walk.IsIdle block ∧ t.walk.frames = s.walk.frames ∧ t.run = s.run := by
  have hdead : s.walk.isLive = false := hs.isLive_eq hfalse
  cases hd : directive? s with
  | none =>
    have hkept {t : LineState} (ht : t.walk = s.walk ∧ t.run = s.run) :
        t.walk.IsIdle block ∧ t.walk.frames = s.walk.frames ∧ t.run = s.run := by
      rw [ht.1]
      exact ⟨hs, rfl, ht.2⟩
    exact wp_mono (walk_statement hd) (fun _ _ ht => hkept ⟨ht.1, ht.2 hdead⟩)
      fun _ _ ht => hkept ⟨ht.1, ht.2 hdead⟩
  | some d =>
    have hturned {t : LineState} (ht : s.walk.Turn s.run d t.walk t.run) :
        t.walk.IsIdle block ∧ t.walk.frames = s.walk.frames ∧ t.run = s.run := by
      obtain ⟨hidle, hrun⟩ := ht.idle hblock hfalse hs (hinner d hd)
      exact ⟨hidle, ht.frames_eq, hrun⟩
    exact wp_mono (turn_statement hd (isStructural_of_dead hd hdead)) (fun _ _ ht => hturned ht)
      fun _ _ ht => hturned ht

/-- A statement as it is executed where no conditional is open. -/
def execution : LineM Bool := do
  modify fun s => { s with parts := #[] }
  let cursor ← getCursor
  if cursor.atAssignment then
    assignment
    return true
  else
    match Directive.find? cursor.rest with
    | some (spelling, d) =>
      directive spelling d
      return !(← getWalk).rewound
    | none =>
      operation
      return true

theorem statement_of_live (h : s.walk.isLive = true) : statement env s = execution env s := by
  have hstatement : statement env s =
      (if s.cursor.atAssignment then
        if s.walk.isLive then (do assignment; return true) else (do skipStatement; return true)
      else
        match Directive.find? s.cursor.rest with
        | some (spelling, d) =>
          if s.walk.isLive || d.isStructural then (do directive spelling d; return !(← getWalk).rewound)
          else (do skipStatement; return true)
        | none => if s.walk.isLive then (do operation; return true) else (do skipStatement; return true) :
        LineM Bool) env { s with parts := #[] } := rfl
  have hexecution : execution env s =
      (if s.cursor.atAssignment then (do assignment; return true)
      else
        match Directive.find? s.cursor.rest with
        | some (spelling, d) => (do directive spelling d; return !(← getWalk).rewound)
        | none => (do operation; return true) : LineM Bool) env { s with parts := #[] } := rfl
  rw [hstatement, hexecution]
  simp only [h, Bool.true_or, if_true]

end LineM

/-! ### Stages inside a branch -/

namespace Stage

variable {library : Library} {allowance : Allowance} {block : List Conditional} {p q : Stage}

/-- One step inside a branch whose conditional, with those around it, is `block`.
It is not a directive of this conditional. The text of an `ASM` leaves the
conditional as it is. -/
structure BranchStep (library : Library) (allowance : Allowance) (block : List Conditional) (p q : Stage) :
    Prop where
  advances : Advances library allowance p q
  inner : ∀ d, p.directive? = some d → d.goesOn = true → block.length < p.walk.conditionals.length
  text : p.directive? = some .asm → block <:+ q.walk.conditionals

/-- Steps inside a branch, one after another. -/
abbrev BranchPath (library : Library) (allowance : Allowance) (block : List Conditional) : Stage → Stage → Prop :=
  Relation.ReflTransGen (BranchStep library allowance block)

theorem walk_left {bound index : Nat} {line : String} {record : Bool} {problem : Option Problem} {s : LineState} :
    (left bound index line record problem s).walk = s.walk.captureLine index line := rfl

theorem isKept_left {bound index : Nat} {line : String} {record : Bool} {problem : Option Problem} {s : LineState} :
    s.run.IsKept (left bound index line record problem s).run := by
  cases problem <;> cases record <;> exact ⟨_, _, rfl⟩

theorem conditionals_captureLine (w : Walk) (index : Nat) (line : String) :
    (w.captureLine index line).conditionals = w.conditionals := by
  obtain ⟨capture, hcapture⟩ := w.captureLine_eq index line
  rw [hcapture]

theorem frames_captureLine (w : Walk) (index : Nat) (line : String) :
    (w.captureLine index line).frames = w.frames := by
  obtain ⟨capture, hcapture⟩ := w.captureLine_eq index line
  rw [hcapture]
  rfl

theorem isIdle_captureLine {w : Walk} (h : w.IsIdle block) (index : Nat) (line : String) :
    (w.captureLine index line).IsIdle block := by
  obtain ⟨inner, hinner, hcapture⟩ := h
  refine ⟨inner, by rw [conditionals_captureLine, hinner], fun hmacro => ?_⟩
  rw [Walk.captureLine, hcapture hmacro]
  exact hcapture hmacro

section
variable {bound index : Nat} {line : String} {record : Bool} {s : LineState}

theorem BranchStep.suffix_execute (h : BranchStep library allowance block (inside bound index line record s) q)
    (hblock : IsBlock block) (hasm : (inside bound index line record s).directive? ≠ some .asm)
    (hs : block <:+ s.walk.conditionals) :
    LineM.wp LineM.statement (.ofLine library allowance bound index) { s with cursor := s.cursor.skipBlanks }
      (fun _ t => block <:+ t.walk.conditionals) fun _ t => block <:+ t.walk.conditionals :=
  LineM.suffix_statement hblock hs hasm h.inner

theorem BranchStep.idle_execute (h : BranchStep library allowance block (inside bound index line record s) q)
    (hblock : IsBlock block) (hfalse : allTrue block = false) (hs : s.walk.IsIdle block) :
    LineM.wp LineM.statement (.ofLine library allowance bound index) { s with cursor := s.cursor.skipBlanks }
      (fun _ t => t.walk.IsIdle block ∧ t.walk.frames = s.walk.frames ∧ t.run = s.run)
      fun _ t => t.walk.IsIdle block ∧ t.walk.frames = s.walk.frames ∧ t.run = s.run :=
  LineM.idle_statement hblock hfalse hs h.inner

end

theorem BranchStep.suffix (h : BranchStep library allowance block p q) (hblock : IsBlock block)
    (hp : block <:+ p.walk.conditionals) : block <:+ q.walk.conditionals := by
  by_cases hasm : p.directive? = some .asm
  · exact h.text hasm
  cases h.advances with
  | enters => exact hp
  | executes hrest hrun =>
    have ht := LineM.of_wp_ok (h.suffix_execute hblock hasm hp) hrun
    exact ht
  | rewinds hrest hrun =>
    have ht := LineM.of_wp_ok (h.suffix_execute hblock hasm hp) hrun
    rw [walk_left, conditionals_captureLine]
    exact ht
  | ends =>
    rw [walk_left, conditionals_captureLine]
    exact hp
  | fails hrest hrun =>
    have ht := LineM.of_wp_error (h.suffix_execute hblock hasm hp) hrun
    rw [walk_left, conditionals_captureLine]
    exact ht

/-- The conditional of a branch is open all through the branch. -/
theorem BranchPath.suffix (h : BranchPath library allowance block p q) (hblock : IsBlock block)
    (hp : block <:+ p.walk.conditionals) : block <:+ q.walk.conditionals := by
  induction h with
  | refl => exact hp
  | tail _ hstep ih => exact hstep.suffix hblock ih

theorem isIdle_left {bound index : Nat} {line : String} {record : Bool} {problem : Option Problem} {s t : LineState}
    (h : t.walk.IsIdle block ∧ t.walk.frames = s.walk.frames ∧ t.run = s.run) :
    (left bound index line record problem t).walk.IsIdle block ∧
      (left bound index line record problem t).walk.frames = s.walk.frames ∧
      s.run.IsKept (left bound index line record problem t).run := by
  obtain ⟨hidle, hframes, hrun⟩ := h
  refine ⟨isIdle_captureLine hidle index line, ?_, ?_⟩
  · rw [walk_left, frames_captureLine, hframes]
  · rw [← hrun]
    exact isKept_left

theorem BranchStep.idle (h : BranchStep library allowance block p q) (hblock : IsBlock block)
    (hfalse : allTrue block = false) (hp : p.walk.IsIdle block) :
    q.walk.IsIdle block ∧ q.walk.frames = p.walk.frames ∧ p.run.IsKept q.run := by
  cases h.advances with
  | enters => exact ⟨hp, rfl, .refl _⟩
  | @executes bound index line record s t hrest hrun =>
    obtain ⟨hidle, hframes, hrun⟩ := LineM.of_wp_ok (h.idle_execute hblock hfalse hp) hrun
    refine ⟨hidle, hframes, ?_⟩
    change s.run.IsKept t.run
    rw [hrun]
    exact .refl _
  | rewinds hrest hrun => exact isIdle_left (LineM.of_wp_ok (h.idle_execute hblock hfalse hp) hrun)
  | ends => exact isIdle_left ⟨hp, rfl, rfl⟩
  | fails hrest hrun => exact isIdle_left (LineM.of_wp_error (h.idle_execute hblock hfalse hp) hrun)

/-- A branch that is not executed leaves scopes and run as they are. -/
theorem BranchPath.idle (h : BranchPath library allowance block p q) (hblock : IsBlock block)
    (hfalse : allTrue block = false) (hp : p.walk.IsIdle block) :
    q.walk.IsIdle block ∧ q.walk.frames = p.walk.frames ∧ p.run.IsKept q.run := by
  induction h with
  | refl => exact ⟨hp, rfl, .refl _⟩
  | tail _ hstep ih =>
    obtain ⟨hidle, hframes, hkept⟩ := ih
    obtain ⟨hidle', hframes', hkept'⟩ := hstep.idle hblock hfalse hidle
    exact ⟨hidle', hframes'.trans hframes, hkept.trans hkept'⟩

/-! ### The directives of a conditional -/

/-- Whether a directive is executed next and raises no problem. -/
inductive Performs (library : Library) (allowance : Allowance) (d : Directive) : Stage → Stage → Prop
  | mk {bound index : Nat} {line : String} {record : Bool} {s t : LineState}
      (hdirective : LineM.directive? { s with cursor := s.cursor.skipBlanks } = some d)
      (hrun : execute library allowance bound index s = .ok true t) :
      Performs library allowance d (inside bound index line record s) (inside bound index line record t)

/-- A directive that is followed on the same line has raised no problem. -/
theorem Advances.performs {d : Directive} {bound index : Nat} {line : String} {record : Bool} {t : LineState}
    (h : Advances library allowance p (inside bound index line record t)) (hd : p.directive? = some d) :
    Performs library allowance d p (inside bound index line record t) := by
  cases h with
  | enters => cases hd
  | executes _ hrun => exact .mk hd hrun

/-- Whether the branch that begins here is executed if none before it was. -/
def holds (library : Library) (allowance : Allowance) : Stage → Bool
  | before _ _ _ => false
  | inside bound index _ _ s =>
    LineM.holds (.ofLine library allowance bound index) { s with cursor := s.cursor.skipBlanks }

/-- Whether a directive is read without its condition. -/
inductive PassesOver : Stage → Stage → Prop
  | mk {bound index : Nat} {line : String} {record : Bool} {s t : LineState}
      (hover : LineM.PassesOver { s with cursor := s.cursor.skipBlanks } t) :
      PassesOver (inside bound index line record s) (inside bound index line record t)

/-- Whether the next statement is executed as where no conditional is open. -/
def IsExecuted (library : Library) (allowance : Allowance) : Stage → Prop
  | before _ _ _ => True
  | inside bound index _ _ s =>
    execute library allowance bound index s =
      LineM.execution (.ofLine library allowance bound index) { s with cursor := s.cursor.skipBlanks }

theorem isExecuted_of_live (h : p.walk.isLive = true) : p.IsExecuted library allowance := by
  cases p with
  | before => trivial
  | inside bound index line record s => exact LineM.statement_of_live h

theorem PassesOver.run_eq (h : p.PassesOver q) : q.run = p.run := by
  cases h with
  | mk hover =>
    obtain ⟨spelling, d, nodes, conditionals, -, rfl⟩ := hover
    rfl

theorem Performs.frames_eq {d : Directive} (h : Performs library allowance d p q) (hd : d.isStructural = true) :
    q.walk.frames = p.walk.frames := by
  cases h with
  | mk hdirective hrun => exact (LineM.of_wp_ok (LineM.turn_statement hdirective hd) hrun).frames_eq

/-- A branch: its directive, what is right after it, and the next directive of the
conditional. -/
structure Branch where
  head : Stage
  body : Stage
  tail : Stage

namespace Branch

/-- Whether a branch begins with a directive that raises no problem and goes on to
the next directive of its conditional. -/
structure IsMet (library : Library) (allowance : Allowance) (d : Directive) (b : Branch) : Prop where
  begins : Performs library allowance d b.head b.body
  path : BranchPath library allowance b.body.walk.conditionals b.body b.tail
  closed : b.tail.walk.conditionals.length = b.body.walk.conditionals.length

/-- What becomes of a branch. `wanted` says whether it is executed if its condition
holds. If it is not wanted, the condition is passed over. If it is executed, every
statement in it is, unless a conditional opened in the branch is false. If it is
not executed, none is, and all through the branch scopes and run stay as they were
at its beginning, but for what is shown of the run. -/
structure Behaves (library : Library) (allowance : Allowance) (wanted : Bool) (b : Branch) : Prop where
  passedOver : wanted = false → b.head.directive? ≠ some .elseBlock → b.head.PassesOver b.body
  executed : (wanted && b.head.holds library allowance) = true →
    ∀ x, BranchPath library allowance b.body.walk.conditionals b.body x →
      ∃ inner, x.walk.conditionals = inner ++ b.body.walk.conditionals ∧ x.walk.isLive = allTrue inner ∧
        (allTrue inner = true → x.IsExecuted library allowance)
  idle : (wanted && b.head.holds library allowance) = false →
    ∀ x, BranchPath library allowance b.body.walk.conditionals b.body x →
      x.walk.isLive = false ∧ x.walk.frames = b.body.walk.frames ∧ b.body.run.IsKept x.run

variable {b : Branch} {f : Conditional} {outer : List Conditional} {d : Directive}

/-- What becomes of a branch is in the frame of its conditional. -/
theorem behaves {unpassed : Bool} (hbody : b.body.walk.conditionals = f :: outer) (hf : f.isMacro = false)
    (hcondition : allTrue outer = true → f.condition = (unpassed && b.head.holds library allowance))
    (hskips : (allTrue outer && unpassed) = false → b.head.directive? ≠ some .elseBlock →
      b.head.PassesOver b.body) :
    b.Behaves library allowance (allTrue outer && unpassed) := by
  have hblock : IsBlock b.body.walk.conditionals := ⟨f, outer, hbody, hf⟩
  have htrue : allTrue b.body.walk.conditionals =
      (allTrue outer && unpassed && b.head.holds library allowance) := by
    rw [hbody, allTrue, List.all_cons]
    change (f.condition && allTrue outer) = _
    cases houter : allTrue outer with
    | false => simp
    | true => simp [hcondition houter]
  refine ⟨hskips, fun hexecuted x hx => ?_, fun hidle x hx => ?_⟩
  · obtain ⟨inner, hinner⟩ := hx.suffix hblock List.suffix_rfl
    have hlive : x.walk.isLive = allTrue inner := by
      rw [Walk.isLive, ← hinner, allTrue_append, htrue, hexecuted, Bool.and_true]
    exact ⟨inner, hinner.symm, hlive, fun hall => isExecuted_of_live (hlive.trans hall)⟩
  · rw [← htrue] at hidle
    have hbegin : b.body.walk.IsIdle b.body.walk.conditionals := ⟨[], rfl, fun hnone => by cases hnone⟩
    obtain ⟨hx, hframes, hkept⟩ := hx.idle hblock hidle hbegin
    exact ⟨hx.isLive_eq hidle, hframes, hkept⟩

/-- At its end the conditionals of a branch are those at its beginning. -/
theorem IsMet.tail_eq (h : b.IsMet library allowance d) (hbody : b.body.walk.conditionals = f :: outer)
    (hf : f.isMacro = false) : b.tail.walk.conditionals = f :: outer := by
  have hsuffix := h.path.suffix ⟨f, outer, hbody, hf⟩ List.suffix_rfl
  exact (hsuffix.eq_of_length h.closed.symm).symm.trans hbody

/-- A branch whose condition is passed over changes nothing from its directive on. -/
theorem IsMet.isKept {wanted : Bool} (h : b.IsMet library allowance d) (hb : b.Behaves library allowance wanted)
    (hwanted : wanted = false) (hd : d.isStructural = true) (hrun : b.body.run = b.head.run) :
    b.head.run.IsKept b.tail.run ∧ b.tail.walk.frames = b.head.walk.frames := by
  obtain ⟨-, hframes, hkept⟩ := hb.idle (by rw [hwanted, Bool.false_and]) b.tail h.path
  rw [hrun] at hkept
  exact ⟨hkept, hframes.trans (h.begins.frames_eq hd)⟩

/-- What an `IF` does to begin a branch. -/
theorem IsMet.opens (h : b.IsMet library allowance .ifBlock) :
    ∃ f, b.body.walk.conditionals = f :: b.head.walk.conditionals ∧ f.isMacro = false ∧
      (allTrue b.head.walk.conditionals = true →
        f.passed = b.head.holds library allowance ∧ f.condition = b.head.holds library allowance) ∧
      (allTrue b.head.walk.conditionals = false → b.head.PassesOver b.body) := by
  obtain ⟨head, body, tail⟩ := b
  cases h.begins with
  | mk hdirective hrun =>
    obtain ⟨f, hframes, hf, hlive, hdead⟩ := LineM.branch_of_if hdirective hrun
    exact ⟨f, hframes, hf, hlive, fun h => .mk (hdead h)⟩

/-- What an `ELIF` or an `ELSE` does to begin a branch. -/
theorem IsMet.goesOn (hd : d = .elifBlock ∨ d = .elseBlock) (h : b.IsMet library allowance d)
    (hhead : b.head.walk.conditionals = f :: outer) :
    ∃ f', b.body.walk.conditionals = f' :: outer ∧ f'.isMacro = false ∧
      (allTrue outer = true → f'.passed = (f.passed || b.head.holds library allowance) ∧
        f'.condition = (!f.passed && b.head.holds library allowance)) ∧
      ((allTrue outer && !f.passed) = false →
        (b.head.directive? ≠ some .elseBlock → b.head.PassesOver b.body) ∧ b.body.run = b.head.run) := by
  obtain ⟨head, body, tail⟩ := b
  cases h.begins with
  | @mk bound index line record s t hdirective hrun =>
    rcases hd with rfl | rfl
    · obtain ⟨f', hframes, hf, hlive, hdead⟩ := LineM.branch_of_elif hdirective hrun hhead
      refine ⟨f', hframes, hf, hlive, fun h => ?_⟩
      exact ⟨fun _ => .mk (hdead h), (PassesOver.mk (hdead h)).run_eq⟩
    · obtain ⟨f', hframes, hf, hholds, hrun, hpassed, hcondition⟩ := LineM.branch_of_else hdirective hrun hhead
      have hholds : (inside bound index line record s).holds library allowance = true := hholds
      refine ⟨f', hframes, hf, fun _ => ?_, fun _ => ⟨fun hne => absurd hdirective hne, hrun⟩⟩
      rw [hholds, Bool.or_true, Bool.and_true]
      exact ⟨hpassed, hcondition⟩

end Branch

/-- The branches of a conditional after the first, to what follows its `ENDIF`. -/
inductive Branches (library : Library) (allowance : Allowance) : Stage → List Branch → Stage → Prop
  | closes {p q : Stage} (hends : Performs library allowance .endif p q) : Branches library allowance p [] q
  | goesOn {b : Branch} {d : Directive} {rest : List Branch} {q : Stage}
      (hd : d = .elifBlock ∨ d = .elseBlock) (hmet : b.IsMet library allowance d)
      (hrest : Branches library allowance b.tail rest q) : Branches library allowance b.head (b :: rest) q

/-- A conditional from its `IF` to what follows its `ENDIF`. -/
def IsConditional (library : Library) (allowance : Allowance) (p : Stage) (branches : List Branch) (q : Stage) :
    Prop :=
  ∃ b rest, branches = b :: rest ∧ b.head = p ∧ b.IsMet library allowance .ifBlock ∧
    Branches library allowance b.tail rest q

/-- What holds of the first branch and of those after it, with the ones before
each, holds of all. -/
theorem forall_branches {P : List Branch → Branch → Prop} {b : Branch} {rest : List Branch} (hb : P [] b)
    (hrest : ∀ earlier c later, rest = earlier ++ c :: later → P (b :: earlier) c) :
    ∀ earlier c later, b :: rest = earlier ++ c :: later → P earlier c := by
  intro earlier c later heq
  cases earlier with
  | nil =>
    obtain ⟨rfl, -⟩ := List.cons.inj heq
    exact hb
  | cons e earlier =>
    obtain ⟨rfl, hlist⟩ := List.cons.inj heq
    exact hrest earlier c later hlist

theorem Branches.behaves {branches : List Branch} {f : Conditional} {outer : List Conditional}
    (h : Branches library allowance p branches q) (hp : p.walk.conditionals = f :: outer) :
    q.walk.conditionals = outer ∧
    (∀ earlier b later, branches = earlier ++ b :: later →
      b.Behaves library allowance
        (allTrue outer && !(f.passed || earlier.any fun c => c.head.holds library allowance))) ∧
    (allTrue outer = false → p.run.IsKept q.run ∧ q.walk.frames = p.walk.frames) := by
  induction h generalizing f with
  | closes hends =>
    have hframes := hends.frames_eq rfl
    cases hends with
    | mk hdirective hrun =>
      obtain ⟨hclosed, hrun⟩ := LineM.branch_of_endif hdirective hrun hp
      refine ⟨hclosed, fun earlier b later hnone => ?_, fun _ => ⟨?_, hframes⟩⟩
      · simp at hnone
      · rw [show (inside _ _ _ _ _).run = _ from hrun]
        exact .refl _
  | @goesOn b d rest q hd hmet hrest ih =>
    obtain ⟨f', hbody, hf, hlive, hdead⟩ := hmet.goesOn hd hp
    have htail : b.tail.walk.conditionals = f' :: outer := hmet.tail_eq hbody hf
    obtain ⟨hq, hlater, hkept⟩ := ih htail
    have hb : b.Behaves library allowance (allTrue outer && !f.passed) :=
      Branch.behaves hbody hf (fun h => (hlive h).2) fun h => (hdead h).1
    refine ⟨hq, forall_branches ?_ fun earlier c later heq => ?_, fun houter => ?_⟩
    · rw [List.any_nil, Bool.or_false]
      exact hb
    · have hwanted : (allTrue outer && !(f'.passed || earlier.any fun c => c.head.holds library allowance)) =
          (allTrue outer && !(f.passed || (b :: earlier).any fun c => c.head.holds library allowance)) := by
        cases houter : allTrue outer with
        | false => rfl
        | true => rw [(hlive houter).1, List.any_cons, Bool.or_assoc]
      rw [← hwanted]
      exact hlater earlier c later heq
    · have hwanted : (allTrue outer && !f.passed) = false := by rw [houter, Bool.false_and]
      obtain ⟨hkept', hframes⟩ := hmet.isKept hb hwanted (by rcases hd with rfl | rfl <;> rfl) (hdead hwanted).2
      exact ⟨hkept'.trans (hkept houter).1, (hkept houter).2.trans hframes⟩

/-- A conditional executes exactly the first branch whose condition holds, or else
that of its `ELSE`. Let its directives raise no problem themselves, and let there be
any text in its branches, in any state of the walk.

A branch is wanted if statements are executed around the conditional and no branch
before it holds. A condition is evaluated only for a branch that is wanted; a branch
is executed exactly if it is wanted and holds; any other branch changes neither
scopes nor run. After the `ENDIF` the open conditionals are those before the `IF`.
Where statements are not executed around the conditional, nothing changes from the
`IF` to the `ENDIF`, but for what is shown of the run. -/
theorem conditional_executes_first {branches : List Branch} (h : IsConditional library allowance p branches q) :
    q.walk.conditionals = p.walk.conditionals ∧
    (∀ earlier b later, branches = earlier ++ b :: later →
      b.Behaves library allowance
        (p.walk.isLive && !earlier.any fun c => c.head.holds library allowance)) ∧
    (p.walk.isLive = false → p.run.IsKept q.run ∧ q.walk.frames = p.walk.frames) := by
  obtain ⟨b, rest, rfl, rfl, hmet, hrest⟩ := h
  obtain ⟨f, hbody, hf, hlive, hdead⟩ := hmet.opens
  have hb : b.Behaves library allowance (allTrue b.head.walk.conditionals && true) :=
    Branch.behaves hbody hf (fun h => (hlive h).2) fun h _ => hdead (by rwa [Bool.and_true] at h)
  obtain ⟨hq, hlater, hkept⟩ := hrest.behaves (hmet.tail_eq hbody hf)
  refine ⟨hq, forall_branches hb fun earlier c later heq => ?_, fun houter => ?_⟩
  · have hwanted : (allTrue b.head.walk.conditionals &&
        !(f.passed || earlier.any fun c => c.head.holds library allowance)) =
          (b.head.walk.isLive && !(b :: earlier).any fun c => c.head.holds library allowance) := by
      rw [Walk.isLive]
      cases houter : allTrue b.head.walk.conditionals with
      | false => rfl
      | true => rw [(hlive houter).1, List.any_cons]
    rw [← hwanted]
    exact hlater earlier c later heq
  · have houter : allTrue b.head.walk.conditionals = false := houter
    obtain ⟨hkept', hframes⟩ := hmet.isKept hb (by rw [houter, Bool.false_and]) rfl (hdead houter).run_eq
    exact ⟨hkept'.trans (hkept houter).1, (hkept houter).2.trans hframes⟩

end Stage

/-! ### A conditional with three branches -/

/-- A conditional of whose branches the second is executed, with a conditional in
it, and the third defines a macro. -/
def branchSample : Buffer :=
  .ofText 0 "IF 0:x=1:ELIF 2:IF 0:y=1:ENDIF:z=3\nELSE:MACRO m:ENDMACRO\nENDIF\n" 0 none

/-- The stages of the sample. -/
def branchSampleStage : Nat → Stage
  | 0 => .before 9 (.start branchSample []) (.start ⟨[], 0, none⟩ 0 .never 0)
  | k + 1 => ((branchSampleStage k).advance? (.ofFiles []) fullAllowance).getD (branchSampleStage k)

theorem advances_branchSampleStage {k : Nat} (hk : k < 24) :
    (branchSampleStage k).Advances (.ofFiles []) fullAllowance (branchSampleStage (k + 1)) := by
  have hsome : ∀ k < 24, ((branchSampleStage k).advance? (.ofFiles []) fullAllowance).isSome = true := by
    decide +kernel
  obtain ⟨q, hq⟩ := Option.isSome_iff_exists.mp (hsome k hk)
  rw [Stage.advances_iff, branchSampleStage, hq]
  rfl

attribute [irreducible] branchSampleStage

/-- The directives of the sample, where they are met. -/
theorem performs_branchSampleStage {k : Nat} {d : Directive}
    (hk : (k, d) ∈ [(1, Directive.ifBlock), (5, .elifBlock), (16, .elseBlock), (23, .endif)]) :
    (branchSampleStage k).Performs (.ofFiles []) fullAllowance d (branchSampleStage (k + 1)) := by
  have hmet : ∀ x ∈ [(1, Directive.ifBlock), (5, .elifBlock), (16, .elseBlock), (23, .endif)],
      x.1 < 24 ∧ (branchSampleStage x.1).directive? = some x.2 ∧
        (match branchSampleStage (x.1 + 1) with
        | .before _ _ _ => false
        | .inside _ _ _ _ _ => true) = true := by decide +kernel
  obtain ⟨hlt, hdirective, hinside⟩ := hmet _ hk
  have hadvances := advances_branchSampleStage hlt
  generalize branchSampleStage (k + 1) = q at hadvances hinside
  cases q with
  | before => cases hinside
  | inside => exact hadvances.performs hdirective

/-- The steps of the sample inside its branches. -/
theorem branchPath_branchSampleStage {block : List Conditional} (hblock : block.length = 1) {k : Nat} :
    ∀ n, (∀ i < n, k + i ∈ [2, 3, 4] ++ List.range' 6 10 ++ List.range' 17 6) →
      Stage.BranchPath (.ofFiles []) fullAllowance block (branchSampleStage k) (branchSampleStage (k + n))
  | 0, _ => .refl
  | n + 1, h => by
    have hinside : ∀ k ∈ [2, 3, 4] ++ List.range' 6 10 ++ List.range' 17 6, k < 24 ∧
        (branchSampleStage k).directive? ≠ some .asm ∧
        ((branchSampleStage k).directive?.any Directive.goesOn = true →
          1 < (branchSampleStage k).walk.conditionals.length) := by decide +kernel
    obtain ⟨hlt, hasm, hinner⟩ := hinside _ (h n (Nat.lt_succ_self n))
    refine .tail (branchPath_branchSampleStage hblock n fun i hi => h i (Nat.lt_succ_of_lt hi)) ?_
    refine ⟨advances_branchSampleStage hlt, fun d hd hgoesOn => ?_, fun h => absurd h hasm⟩
    rw [hblock]
    exact hinner (by rw [hd]; exact hgoesOn)

/-- The branches of the sample. -/
def branchSampleBranches : List Stage.Branch :=
  [⟨branchSampleStage 1, branchSampleStage 2, branchSampleStage 5⟩,
    ⟨branchSampleStage 5, branchSampleStage 6, branchSampleStage 16⟩,
    ⟨branchSampleStage 16, branchSampleStage 17, branchSampleStage 23⟩]

theorem isConditional_branchSample :
    Stage.IsConditional (.ofFiles []) fullAllowance (branchSampleStage 1) branchSampleBranches
      (branchSampleStage 24) := by
  have hlength : ∀ k ∈ [2, 5, 6, 16, 17, 23], (branchSampleStage k).walk.conditionals.length = 1 := by
    decide +kernel
  have hpath {k : Nat} (hk : k ∈ [2, 5, 6, 16, 17, 23]) (n : Nat)
      (h : ∀ i < n, k + i ∈ [2, 3, 4] ++ List.range' 6 10 ++ List.range' 17 6) :
      Stage.BranchPath (.ofFiles []) fullAllowance (branchSampleStage k).walk.conditionals
        (branchSampleStage k) (branchSampleStage (k + n)) :=
    branchPath_branchSampleStage (hlength k hk) n h
  have hclosed {k k' : Nat} (hk : k ∈ [2, 5, 6, 16, 17, 23]) (hk' : k' ∈ [2, 5, 6, 16, 17, 23]) :
      (branchSampleStage k').walk.conditionals.length = (branchSampleStage k).walk.conditionals.length :=
    (hlength k' hk').trans (hlength k hk).symm
  refine ⟨_, _, rfl, rfl, ⟨performs_branchSampleStage (by decide), ?_, ?_⟩, ?_⟩
  · exact hpath (by decide) 3 (by decide)
  · exact hclosed (by decide) (by decide)
  refine .goesOn (b := ⟨branchSampleStage 5, branchSampleStage 6, branchSampleStage 16⟩) (Or.inl rfl)
    ⟨performs_branchSampleStage (by decide), ?_, ?_⟩ ?_
  · exact hpath (by decide) 10 (by decide)
  · exact hclosed (by decide) (by decide)
  refine .goesOn (b := ⟨branchSampleStage 16, branchSampleStage 17, branchSampleStage 23⟩) (Or.inr rfl)
    ⟨performs_branchSampleStage (by decide), ?_, ?_⟩ ?_
  · exact hpath (by decide) 6 (by decide)
  · exact hclosed (by decide) (by decide)
  exact .closes (performs_branchSampleStage (by decide))

/-- The second branch of the sample is executed and the third is not. -/
theorem conditional_executes_second :
    Stage.IsConditional (.ofFiles []) fullAllowance (branchSampleStage 1) branchSampleBranches
      (branchSampleStage 24) ∧
    (branchSampleStage 24).walk.conditionals = (branchSampleStage 1).walk.conditionals ∧
    (branchSampleStage 13).IsExecuted (.ofFiles []) fullAllowance ∧
    (branchSampleStage 23).walk.isLive = false ∧
    (branchSampleStage 17).run.IsKept (branchSampleStage 23).run := by
  have hconditional := isConditional_branchSample
  obtain ⟨hconditionals, hbehaves, -⟩ := Stage.conditional_executes_first hconditional
  have hholds : (branchSampleStage 1).walk.isLive = true ∧ (branchSampleStage 13).walk.isLive = true ∧
      (branchSampleStage 1).holds (.ofFiles []) fullAllowance = false ∧
      (branchSampleStage 5).holds (.ofFiles []) fullAllowance = true ∧
      (branchSampleStage 6).walk.conditionals.length = 1 ∧
      (branchSampleStage 17).walk.conditionals.length = 1 := by decide +kernel
  obtain ⟨hlive, hlive', hfirst, hsecond, hlength, hlength'⟩ := hholds
  have hexecuted := (hbehaves [_] _ [_] rfl).executed (by simp [hlive, hfirst, hsecond]) (branchSampleStage 13)
    (branchPath_branchSampleStage hlength 7 (by decide))
  have hidle := (hbehaves [_, _] _ [] rfl).idle (by simp [hsecond]) (branchSampleStage 23)
    (branchPath_branchSampleStage hlength' 6 (by decide))
  obtain ⟨inner, -, hinner, himplies⟩ := hexecuted
  exact ⟨hconditional, hconditionals, himplies (hinner.symm.trans hlive'), hidle.1, hidle.2.2⟩

/-- A walk with room for one more conditional, before an `IF` that is false. -/
def crowdedWalk : Walk :=
  { Walk.start (.ofText 0 "IF 0\nIF 1\nENDIF\nORG 5\nENDIF\n" 0 none) [] with
    conditionals := List.replicate 255 ⟨true, true, false, false, ⟨0, 0⟩⟩ }

/-- Where there is no room for a conditional inside a branch that is not executed,
its `ENDIF` closes the branch, and the rest of the branch is executed. -/
theorem conditional_without_room :
    crowdedWalk.isLive = true ∧
    (walk (.ofFiles []) 8 fullAllowance crowdedWalk (.start ⟨[], 0, none⟩ 0 .never 0)).map
      (fun (_, r) => r.code.pc) = some 5 := by decide +kernel

end Asm6502
