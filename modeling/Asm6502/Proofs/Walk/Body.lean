/-
# The body of a loop

The body of a loop is what is executed from the arguments of its `FOR` to the
`NEXT` that matches. It may be any statements that raise no problem and execute
no text, on one line or on many: scopes that are opened in it lie above that of
the loop, so only the matching `NEXT` gets at this scope.

Key definitions: `Stage.BodyStep`, `Stage.IsMatching`, `Stage.IsRegular`.
Key theorems: `LineM.eq_of_statement_next`, `LineM.statement_forLoop`,
`Stage.BodyPath.suffix`, `Stage.IsMatching.unique`, `Stage.IsRegular.path`.
-/
import Asm6502.Proofs.Scope.Hygiene

namespace Asm6502

/-! ### The statements of a loop -/

namespace LineM

variable {env : Setting} {s t : LineState} {d : Directive}

/-- Every directive of a loop has one spelling. -/
theorem spelling_of_find? {spelling : String} {cs : List Char}
    (h : Directive.find? cs = some (spelling, d)) :
    (d = .forLoop → spelling = "FOR") ∧ (d = .next → spelling = "NEXT") := by
  have hall : ∀ p ∈ Directive.spellings,
      (p.2 = .forLoop → p.1 = "FOR") ∧ (p.2 = .next → p.1 = "NEXT") := by decide
  exact hall _ (List.mem_of_find?_eq_some h)

/-- The rest of the line is executed unless a loop has moved the walk back. -/
theorem eq_not_rewound_of_statement {goesOn : Bool} (h : directive? s = some d)
    (hrun : statement env s = .ok goesOn t) : goesOn = !t.walk.rewound := by
  obtain ⟨spelling, hfind⟩ := find?_of_directive? h
  have hstatement : wp statement env s (fun goesOn t => goesOn = !t.walk.rewound) fun _ _ => True := by
    apply wp_statement_directive h hfind
    unfold wp
    split
    · exact fun _ => rfl
    · trivial
  exact of_wp_ok hstatement hrun

/-- What a `NEXT` does that raises no problem. -/
theorem eq_of_statement_next {goesOn : Bool} (h : directive? s = some .next)
    (hrun : statement env s = .ok goesOn t) :
    ∃ w r nodes, s.walk.stepLoop s.run = .ok (w, r) ∧ goesOn = !w.rewound ∧
      t = { s with
        cursor := (s.cursor.skip "NEXT".length).skipBlanks, nodes, parts := #[], walk := w, run := r } := by
  obtain ⟨spelling, hfind⟩ := find?_of_directive? h
  have hspelling : spelling = "NEXT" := (spelling_of_find? hfind).2 rfl
  have hstatement : wp statement env s (fun goesOn t => ∃ w r nodes, s.walk.stepLoop s.run = .ok (w, r) ∧
      goesOn = !w.rewound ∧ t = { s with
        cursor := (s.cursor.skip "NEXT".length).skipBlanks, nodes, parts := #[], walk := w, run := r })
      fun _ _ => True := by
    apply wp_statement_directive h hfind
    rw [hspelling]
    exact wp_next (fun w r _ hstep nodes => ⟨w, r, nodes, hstep, rfl, rfl⟩) fun _ => trivial
  exact of_wp_ok hstatement hrun

/-- A `FOR` whose arguments can be read opens a loop, if the step is not zero and
there is room for its scope. -/
theorem statement_forLoop {l : Loop} (h : directive? s = some .forLoop)
    (hread : readLoop env { s with cursor := s.cursor.skip "FOR".length, parts := #[] } = .ok l t)
    (hrewound : s.walk.rewound = false) (hstep : (l.step == 0) = false)
    (hroom : s.walk.frames.length < maxScopes) :
    ∃ u, statement env s = .ok true u ∧ u.cursor = t.cursor ∧
      t.walk.startLoop t.run l ⟨env.index, s.cursor.column⟩ = .ok (u.walk, u.run) := by
  obtain ⟨spelling, hfind⟩ := find?_of_directive? h
  have hspelling : spelling = "FOR" := (spelling_of_find? hfind).1 rfl
  have hreads : Acts env .whole Doing.None readLoop { s with cursor := s.cursor.skip "FOR".length, parts := #[] } :=
    acts_routine trivial
  have hwalk : t.walk = s.walk := (of_wp_ok hreads hread).2.resembles.walk
  have hstart : ∃ result, t.walk.startLoop t.run l ⟨env.index, s.cursor.column⟩ = .ok result := by
    unfold Walk.startLoop Walk.openScope
    rw [hwalk, if_neg (by simp [hstep]), if_neg (by omega)]
    exact ⟨_, rfl⟩
  obtain ⟨⟨w, r⟩, hstart⟩ := hstart
  have hw : w.rewound = false := by
    rw [(Walk.eq_of_startLoop hstart).1, hwalk]
    exact hrewound
  have hstatement : wp statement env s (fun goesOn u => goesOn = true ∧ u.cursor = t.cursor ∧
      t.walk.startLoop t.run l ⟨env.index, s.cursor.column⟩ = .ok (u.walk, u.run)) fun _ _ => False := by
    apply wp_statement_directive h hfind
    rw [hspelling]
    change wp (forLoop s.cursor.column) env _ _ _
    rw [forLoop_eq, wp, bind_of_ok hread, bind_of_ok (x := spot s.cursor.column) rfl, changeWalk_of_ok hstart]
    intro nodes
    exact ⟨by rw [hw]; rfl, rfl, hstart⟩
  cases hrun : statement env s with
  | ok goesOn u =>
    obtain ⟨rfl, hcursor, hstarted⟩ := of_wp_ok hstatement hrun
    exact ⟨u, rfl, hcursor, hstarted⟩
  | error stop u => exact (of_wp_error hstatement hrun).elim

end LineM

/-! ### What leaves an open loop alone -/

theorem Walk.Effect.rewound_eq {runBuffer : BufferRunner} {x y : Walk × Run} (he : Effect runBuffer False x y) :
    y.1.rewound = x.1.rewound := by
  cases he with
  | stepped hsteps => exact hsteps.elim
  | _ => rfl

theorem Walk.Effect.suffix {runBuffer : BufferRunner} {f : Frame} {own : List Frame} {x y : Walk × Run}
    (he : Effect runBuffer False x y) (hf : f.isLoop = true) (h : f :: own <:+ x.1.own) :
    f :: own <:+ y.1.own := by
  cases he with
  | opened => exact h.trans (List.suffix_cons _ _)
  | @closed w r g rest hown hg =>
    have h : f :: own <:+ w.own := h
    rw [hown] at h
    rcases List.suffix_cons_iff.mp h with heq | hrest
    · obtain ⟨rfl, -⟩ := List.cons.inj heq
      rw [hf] at hg
      cases hg
    · exact hrest
  | stepped hsteps => exact hsteps.elim
  | _ => exact h

namespace LineState

variable {env : Setting} {s t : LineState}

theorem Comes.rewound_eq (h : s.Comes env False t) : t.walk.rewound = s.walk.rewound :=
  h.keeps (P := fun w _ => w.rewound = s.walk.rewound) (fun _ _ he hw => he.rewound_eq.trans hw) rfl

theorem Comes.suffix {f : Frame} {own : List Frame} (h : s.Comes env False t) (hf : f.isLoop = true)
    (hs : f :: own <:+ s.walk.own) : f :: own <:+ t.walk.own :=
  h.keeps (P := fun w _ => f :: own <:+ w.own) (fun _ _ he hw => he.suffix hf hw) hs

end LineState

namespace Stage

variable {library : Library} {allowance : Allowance} {bound index : Nat} {line : String} {record : Bool}
  {p q : Stage}

/-- The directive that is executed next, if any. -/
def directive? : Stage → Option Directive
  | before _ _ _ => none
  | inside _ _ _ _ s => LineM.directive? { s with cursor := s.cursor.skipBlanks }

/-- Whether the next statement, if there is one on the line, raises no problem. -/
def IsSmooth (library : Library) (allowance : Allowance) : Stage → Prop
  | before _ _ _ => True
  | inside bound index _ _ s =>
    s.cursor.skipBlanks.rest = [] ∨ ∃ goesOn t, execute library allowance bound index s = .ok goesOn t

instance : DecidablePred (IsSmooth library allowance)
  | before _ _ _ => isTrue trivial
  | inside bound index _ _ s =>
    if hrest : s.cursor.skipBlanks.rest = [] then isTrue (Or.inl hrest)
    else
      match hrun : execute library allowance bound index s with
      | .ok goesOn t => isTrue (Or.inr ⟨goesOn, t, hrun⟩)
      | .error stop t => isFalse fun h => by
        rcases h with h | ⟨goesOn, u, h⟩
        · exact hrest h
        · rw [hrun] at h
          cases h

/-- One step of the body of a loop that has `base` scopes of the walk around it.
It raises no problem, executes no text, and is not a `NEXT` of the loop itself. -/
structure BodyStep (library : Library) (allowance : Allowance) (base : Nat) (p q : Stage) : Prop where
  advances : Advances library allowance p q
  smooth : p.IsSmooth library allowance
  asm : p.directive? ≠ some .asm
  inner : p.directive? = some .next → base + 1 < p.walk.own.length

/-- Steps of the body of a loop, one after another. -/
abbrev BodyPath (library : Library) (allowance : Allowance) (base : Nat) : Stage → Stage → Prop :=
  Relation.ReflTransGen (BodyStep library allowance base)

/-- Whether the `NEXT` of a loop is executed next, and raises no problem. -/
structure IsMatching (library : Library) (allowance : Allowance) (base : Nat) (p : Stage) : Prop where
  directive : p.directive? = some .next
  smooth : p.IsSmooth library allowance
  innermost : p.walk.own.length = base + 1

theorem BodyPath.path {base : Nat} (h : BodyPath library allowance base p q) :
    Relation.ReflTransGen (Advances library allowance) p q :=
  Relation.ReflTransGen.mono (fun _ _ hstep => hstep.advances) _ _ h

theorem own_left {problem : Option Problem} {s : LineState} :
    (left bound index line record problem s).walk.own = s.walk.own := by
  obtain ⟨capture, hcapture⟩ := s.walk.captureLine_eq index line
  change (s.walk.captureLine index line).own = s.walk.own
  rw [hcapture]

/-- What leaving a line without a problem changes. -/
theorem exists_left (bound index : Nat) (line : String) (record : Bool) (s : LineState) :
    ∃ w r, left bound index line record none s = before bound w r ∧
      (∃ capture, w = { s.walk with capture }) ∧ r.symbols = s.run.symbols ∧
      r.isCancelled = s.run.isCancelled := by
  refine ⟨_, _, rfl, s.walk.captureLine_eq index line, ?_, ?_⟩
  · cases record <;> rfl
  · cases record <;> rfl

theorem rewound_of_execute {s t : LineState} (hrest : s.cursor.skipBlanks.rest ≠ [])
    (hrun : execute library allowance bound index s = .ok true t) (h : s.walk.rewound = false) :
    t.walk.rewound = false := by
  cases hd : LineM.directive? { s with cursor := s.cursor.skipBlanks } with
  | some d =>
    have hgoesOn := LineM.eq_not_rewound_of_statement hd hrun
    simpa using hgoesOn.symm
  | none =>
    have hcomes : s.Comes (.ofLine library allowance bound index) False t :=
      comes_of_execute_ok hrest (by simp [hd]) hrun
    exact hcomes.rewound_eq.trans h

/-- A statement of the body does not get at the scope of the loop. -/
theorem suffix_of_execute {s t : LineState} {goesOn : Bool} {f : Frame} {own : List Frame}
    (hrest : s.cursor.skipBlanks.rest ≠ []) (hrun : execute library allowance bound index s = .ok goesOn t)
    (hasm : LineM.directive? { s with cursor := s.cursor.skipBlanks } ≠ some .asm)
    (hinner : LineM.directive? { s with cursor := s.cursor.skipBlanks } = some .next →
      own.length + 1 < s.walk.own.length)
    (hf : f.isLoop = true) (hs : f :: own <:+ s.walk.own) : f :: own <:+ t.walk.own := by
  by_cases hnext : LineM.directive? { s with cursor := s.cursor.skipBlanks } = some .next
  · obtain ⟨w, r, nodes, hstep, -, rfl⟩ := LineM.eq_of_statement_next hnext hrun
    have hlength := hinner hnext
    obtain ⟨g, rest, l, hown, -, hcases⟩ := Walk.eq_of_stepLoop hstep
    have hown : s.walk.own = g :: rest := hown
    have hinside : f :: own <:+ rest := by
      rw [hown] at hs hlength
      rcases List.suffix_cons_iff.mp hs with heq | hinside
      · rw [← heq] at hlength
        simp at hlength
      · exact hinside
    rcases hcases with ⟨rfl, -⟩ | ⟨l', -, rfl, -⟩
    · exact hinside
    · exact hinside.trans (List.suffix_cons _ _)
  · have hsteps : LineM.directive? { s with cursor := s.cursor.skipBlanks } = some .next ∨
        LineM.directive? { s with cursor := s.cursor.skipBlanks } = some .asm → False := by
      rintro (h | h)
      · exact hnext h
      · exact hasm h
    exact (comes_of_execute_ok hrest hsteps hrun).suffix hf hs

theorem BodyStep.suffix {f : Frame} {own : List Frame} (h : BodyStep library allowance own.length p q)
    (hf : f.isLoop = true) (hp : f :: own <:+ p.walk.own) : f :: own <:+ q.walk.own := by
  obtain ⟨hadvances, hsmooth, hasm, hinner⟩ := h
  cases hadvances with
  | enters => exact hp
  | executes hrest hrun => exact suffix_of_execute hrest hrun hasm hinner hf hp
  | rewinds hrest hrun =>
    rw [own_left]
    exact suffix_of_execute hrest hrun hasm hinner hf hp
  | ends =>
    rw [own_left]
    exact hp
  | fails hrest hrun =>
    rcases hsmooth with hend | ⟨goesOn, t, hok⟩
    · exact absurd hend hrest
    · rw [hrun] at hok
      cases hok

/-- The scope of a loop is open all through its body. -/
theorem BodyPath.suffix {f : Frame} {own : List Frame} (h : BodyPath library allowance own.length p q)
    (hf : f.isLoop = true) (hp : f :: own <:+ p.walk.own) : f :: own <:+ q.walk.own := by
  induction h with
  | refl => exact hp
  | tail _ hstep ih => exact hstep.suffix hf ih

/-- The body of a loop comes to one `NEXT` that matches. -/
theorem IsMatching.unique {base : Nat} {b e e' : Stage} (h : BodyPath library allowance base b e)
    (h' : BodyPath library allowance base b e') (he : e.IsMatching library allowance base)
    (he' : e'.IsMatching library allowance base) : e = e' := by
  have hunique : Relator.RightUnique (BodyStep library allowance base) :=
    fun _ _ _ hq hq' => hq.advances.unique hq'.advances
  have hlast {e e' : Stage} (he : e.IsMatching library allowance base)
      (h : BodyPath library allowance base e e') : e = e' := by
    rcases h.cases_head with heq | ⟨q, hstep, -⟩
    · exact heq
    · have hinner := hstep.inner he.directive
      rw [he.innermost] at hinner
      omega
  rcases Relation.ReflTransGen.total_of_right_unique hunique h h' with hpath | hpath
  · exact hlast he hpath
  · exact (hlast he' hpath).symm

/-! ### Stages of a walk from its start -/

/-- Whether a stage is on a line of a buffer that is being executed. -/
def IsOnLine (buffer : Buffer) : Stage → Prop
  | before _ _ _ => True
  | inside _ index line _ s => buffer.lines[index]? = some line ∧ s.walk.rewound = false

/-- A stage of a walk over a buffer inside the scopes of its caller. -/
structure IsRegular (buffer : Buffer) (frames : List Frame) (p : Stage) : Prop where
  within : p.walk.IsWithin buffer frames
  onLine : p.IsOnLine buffer
  formed : p.moment.IsFormed
  capture : p.walk.HasPlainCapture

variable {buffer : Buffer} {frames : List Frame}

theorem isRegular_start {r : Run} (hformed : (⟨frames, r⟩ : Moment).IsFormed) :
    (before bound (.start buffer frames) r).IsRegular buffer frames where
  within := Walk.isWithin_start buffer frames
  onLine := trivial
  formed := hformed
  capture := fun _ hc => by cases hc

theorem Advances.isOnLine (h : Advances library allowance p q) (hwithin : p.walk.IsWithin buffer frames)
    (hp : p.IsOnLine buffer) : q.IsOnLine buffer := by
  cases h with
  | @enters bound w r line hline =>
    have hbuffer : w.buffer = buffer := hwithin.buffer_eq
    rw [hbuffer] at hline
    exact ⟨hline, rfl⟩
  | executes hrest hrun => exact ⟨hp.1, rewound_of_execute hrest hrun hp.2⟩
  | _ => trivial

theorem IsRegular.frames_eq (hp : p.IsRegular buffer frames) : p.walk.frames = p.walk.own ++ frames := by
  rw [Walk.frames, hp.within.inherited_eq]

theorem IsRegular.path (hp : p.IsRegular buffer frames)
    (h : Relation.ReflTransGen (Advances library allowance) p q) : q.IsRegular buffer frames := by
  induction h with
  | refl => exact hp
  | tail _ hstep ih =>
    obtain ⟨hreaches, hcapture⟩ := hstep.reaches (fun n _ => reaches_runBufferWithin n) ih.capture
    exact ⟨hstep.isWithin ih.within, hstep.isOnLine ih.within ih.onLine, ih.formed.reaches hreaches, hcapture⟩

end Stage

end Asm6502
