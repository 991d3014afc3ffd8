/-
# Loops

A `FOR` is the repeated execution of its body. A `NEXT` that matches it moves the
walk back to the column after the arguments, with the scope of the loop counted
on and its variable bound to the next value, until the loop is done. Then the
scope is closed and the walk goes on after the `NEXT`.

The variable keeps its value during an execution of the body if its symbol has
no place of definition, which is so in every first pass. A second pass may find a
symbol of the same full name that the first one has defined by an assignment in
the body. Then that assignment changes the variable.

Key definitions: `LoopSite`, `LineState.StartsLoop`, `Stage.IsIteration`,
`Stage.Iterates`, `Stage.IsPastNext`.
Key theorems: `Stage.exists_opens`, `Stage.IsMatching.rewinds`,
`Stage.IsMatching.done`, `Stage.Iterates.unique`, `Stage.Iterates.isIteration`,
`Stage.Iterates.during`, `forLoop_iterates`.
-/
import Asm6502.Proofs.Scope.Variable
import Asm6502.Proofs.Walk.Body

namespace Asm6502

open Moment (Reaches Enters)

/-! ### A loop and its body -/

/-- A loop of a walk: where its `FOR` stands and its body begins, its scope and
the scopes of the walk around it. -/
structure LoopSite where
  index : Nat
  line : String
  body : Cursor
  loop : Loop
  id : Nat
  openedAt : Spot
  own : List Frame

namespace LoopSite

/-- The loop of a `FOR` at a state, given the state after its arguments. -/
def ofFor (index : Nat) (line : String) (s : LineState) (l : Loop) (t : LineState) : LoopSite :=
  ⟨index, line, t.cursor, l, s.run.lastScope + 1, ⟨index, s.cursor.skipBlanks.column⟩, s.walk.own⟩

/-- The scope of the loop in the `k`-th execution of the body. -/
def frame (x : LoopSite) (k : Nat) : Frame := ⟨.loop (x.loop.turn k), x.id, k, x.openedAt⟩

/-- What a `NEXT` does at the end of the `k`-th execution of the body. -/
theorem stepLoop_eq {x : LoopSite} {k : Nat} {w : Walk} (r : Run) (hown : w.own = x.frame k :: x.own) :
    w.stepLoop r =
      if x.loop.endsAfter k then .ok ({ w with own := x.own }, r)
      else
        .ok ({ w with
            own := x.frame (k + 1) :: x.own
            next := x.loop.resume.index
            resumeColumn := x.loop.resume.column
            rewound := true },
          { r with
            symbols := Walk.bindVariable r.symbols (x.frame (k + 1) :: x.own ++ w.inherited)
              (x.loop.turn (k + 1)) }) := by
  unfold Walk.stepLoop
  rw [hown]
  simp only [frame, Loop.next?_turn]
  split_ifs <;> rfl

/-- Whether a loop stands on a line of a buffer, and goes on where its body
begins. -/
structure IsOn (x : LoopSite) (buffer : Buffer) : Prop where
  line_eq : buffer.lines[x.index]? = some x.line
  resume_eq : x.loop.resume = ⟨x.index, x.body.column⟩
  body_eq : Cursor.ofColumn x.line x.body.column = x.body

end LoopSite

/-- Whether the statement at hand is a `FOR` whose arguments can be read, with a
step other than zero and room for its scope. -/
structure LineState.StartsLoop (env : Setting) (s : LineState) (l : Loop) (t : LineState) : Prop where
  directive : LineM.directive? { s with cursor := s.cursor.skipBlanks } = some .forLoop
  read : LineM.readLoop env
    { s with cursor := s.cursor.skipBlanks.skip "FOR".length, parts := #[] } = .ok l t
  step : (l.step == 0) = false
  room : s.walk.frames.length < maxScopes

namespace Stage

variable {library : Library} {allowance : Allowance} {buffer : Buffer} {frames : List Frame} {x : LoopSite}
  {k : Nat} {p q b b₀ : Stage}

/-- A stage at which the `k`-th execution of the body is about to begin. -/
structure IsIteration (x : LoopSite) (k : Nat) (b : Stage) : Prop where
  place : ∃ bound record s, b = .inside bound x.index x.line record s ∧ s.cursor = x.body
  own_eq : b.walk.own = x.frame k :: x.own
  value : b.run.symbols.value? (fullName x.loop.name b.walk.frames) = some (.num (x.loop.valueAt k))

theorem IsIteration.suffix (h : IsIteration x k b) (hbody : BodyPath library allowance x.own.length b q) :
    x.frame k :: x.own <:+ q.walk.own :=
  hbody.suffix rfl ⟨[], h.own_eq.symm⟩

/-- Whether the symbols at a stage are those at an earlier one with the variable
bound for the `k`-th execution of the body. -/
def Binds (x : LoopSite) (k : Nat) (p b : Stage) : Prop :=
  ∃ symbols, p.run.symbols.Alike symbols ∧
    b.run.symbols = Walk.bindVariable symbols b.walk.frames (x.loop.turn k)

theorem Binds.value (h : Binds x k p b) :
    b.run.symbols.value? (fullName x.loop.name b.walk.frames) = some (.num (x.loop.valueAt k)) := by
  obtain ⟨symbols, -, hsymbols⟩ := h
  obtain ⟨symbol, hget, hvalue, -⟩ := get?_bindVariable_self symbols b.walk.frames (x.loop.turn k)
  have hget : b.run.symbols.get? (fullName x.loop.name b.walk.frames) = some symbol := by
    rw [hsymbols]
    exact hget
  rw [SymbolTable.value?, hget, Option.map_some, hvalue]
  rfl

/-- A variable that had no symbol has got one without a place of definition. -/
theorem Binds.hasVariable (h : Binds x k p b)
    (hnew : p.run.symbols.contains (fullName x.loop.name b.walk.frames) = false) :
    b.moment.HasVariable (x.loop.turn k) b.walk.frames := by
  obtain ⟨symbols, halike, hsymbols⟩ := h
  obtain ⟨symbol, hget, hvalue, hplace⟩ := get?_bindVariable_self symbols b.walk.frames (x.loop.turn k)
  have hnone : symbols.get? (fullName x.loop.name b.walk.frames) = none := by
    rw [halike.contains_eq, SymbolTable.contains_eq_isSome] at hnew
    simpa using hnew
  refine ⟨symbol, ?_, hvalue, ?_⟩
  · rw [← hget, moment, hsymbols]
  · rw [hplace]
    exact congrArg (·.bind Symbol.definedAt) hnone

/-! ### From one execution of the body to the next -/

/-- A `FOR` of a walk over a buffer, and the stage right after it. -/
structure Opens (library : Library) (allowance : Allowance) (buffer : Buffer) (frames : List Frame)
    (x : LoopSite) (p b : Stage) : Prop where
  regular : p.IsRegular buffer frames
  site : x.IsOn buffer
  plain : IsPlain x.loop.name
  own_eq : p.walk.own = x.own
  id_eq : x.id = p.run.lastScope + 1
  advances : Advances library allowance p b
  isIteration : IsIteration x 0 b
  binds : Binds x 0 p b

/-- A `FOR` begins the first execution of its body. -/
theorem exists_opens {bound index : Nat} {line : String} {record : Bool} {s t : LineState} {l : Loop}
    (hp : (inside bound index line record s).IsRegular buffer frames)
    (hstarts : s.StartsLoop (.ofLine library allowance bound index) l t)
    (hstands : ∃ past, s.cursor.Stands line.toList past) :
    ∃ b, Opens library allowance buffer frames (.ofFor index line s l t) (inside bound index line record s) b := by
  obtain ⟨hdirective, hread, hstep, hroom⟩ := hstarts
  obtain ⟨hline, hrewound⟩ := hp.onLine
  obtain ⟨-, hname, hresume⟩ := LineM.of_wp_ok LineM.wp_readLoop hread
  have hacts : LineM.Acts (.ofLine library allowance bound index) (.after s.cursor.skipBlanks) Doing.None LineM.readLoop
      { s with cursor := s.cursor.skipBlanks.skip "FOR".length, parts := #[] } :=
    LineM.acts_routine ((Region.after s.cursor.skipBlanks).has_skip rfl (by decide))
  obtain ⟨hreaches, hdeeds⟩ := LineM.of_wp_ok hacts hread
  have hwalk : t.walk = s.walk := hdeeds.resembles.walk
  have hscope : t.run.lastScope = s.run.lastScope := hdeeds.resembles.lastScope
  -- the column after the arguments leads back to them, so no character is cut
  have hbody : Cursor.ofColumn line t.cursor.column = t.cursor := by
    obtain ⟨past, hstands⟩ := hstands
    have hfrom : s.cursor.Reaches t.cursor :=
      (s.cursor.reaches_skipBlanks.trans (Cursor.reaches_skip _ _)).trans hreaches
    obtain ⟨past', hpast'⟩ := hfrom.stands hstands
    exact hpast'.ofColumn
  obtain ⟨u, hrun, hcursor, hstart⟩ := LineM.statement_forLoop (s := { s with cursor := s.cursor.skipBlanks })
    hdirective hread hrewound hstep hroom
  obtain ⟨hw, hr⟩ := Walk.eq_of_startLoop hstart
  have hown : u.walk.own = (LoopSite.ofFor index line s l t).frame 0 :: s.walk.own := by
    rw [hw, hwalk, hscope]
    rfl
  have hbinds : Binds (.ofFor index line s l t) 0 (inside bound index line record s)
      (inside bound index line record u) := by
    refine ⟨t.run.symbols, hdeeds.resembles.symbols, ?_⟩
    change u.run.symbols = _
    rw [hr]
    rfl
  exact ⟨inside bound index line record u, {
    regular := hp
    site := ⟨hline, hresume, hbody⟩
    plain := hname
    own_eq := rfl
    id_eq := rfl
    advances := .executes (LineM.rest_ne_nil_of_directive? hdirective) hrun
    isIteration := ⟨⟨bound, record, u, rfl, hcursor⟩, hown, hbinds.value⟩
    binds := hbinds }⟩

/-- What is executed at a `NEXT` that matches, in the `k`-th execution of the
body. -/
theorem IsMatching.exists_execute (h : p.IsMatching library allowance x.own.length)
    (hopen : x.frame k :: x.own <:+ p.walk.own) :
    ∃ bound index line record s w r nodes goesOn, p = inside bound index line record s ∧
      s.walk.own = x.frame k :: x.own ∧ s.cursor.skipBlanks.rest ≠ [] ∧ s.walk.stepLoop s.run = .ok (w, r) ∧
      goesOn = !w.rewound ∧ execute library allowance bound index s = .ok goesOn
        ⟨(s.cursor.skipBlanks.skip "NEXT".length).skipBlanks, nodes, #[], w, r⟩ := by
  obtain ⟨hdirective, hsmooth, hinnermost⟩ := h
  cases p with
  | before => cases hdirective
  | inside bound index line record s =>
    have hrest := LineM.rest_ne_nil_of_directive? hdirective
    obtain ⟨goesOn, t, hrun⟩ := hsmooth.resolve_left hrest
    obtain ⟨w, r, nodes, hstep, hgoesOn, rfl⟩ := LineM.eq_of_statement_next hdirective hrun
    have hown : s.walk.own = x.frame k :: x.own := (hopen.eq_of_length hinnermost.symm).symm
    exact ⟨bound, index, line, record, s, w, r, nodes, goesOn, rfl, hown, hrest, hstep, hgoesOn, hrun⟩

/-- A walk that has been moved back to the body of a loop, after the `k`-th
execution of the body. -/
structure IsRewound (x : LoopSite) (k : Nat) (p : Stage) (w : Walk) (r : Run) : Prop where
  own_eq : w.own = x.frame (k + 1) :: x.own
  next_eq : w.next = x.index
  column_eq : w.resumeColumn = x.body.column
  line_eq : w.buffer.lines[w.next]? = some x.line
  symbols_eq : r.symbols = Walk.bindVariable p.run.symbols w.frames (x.loop.turn (k + 1))

/-- A `NEXT` that does not end its loop moves the walk back. -/
theorem IsMatching.rewinds (h : p.IsMatching library allowance x.own.length) (hp : p.IsRegular buffer frames)
    (hx : x.IsOn buffer) (hopen : x.frame k :: x.own <:+ p.walk.own) (hgoesOn : ¬ x.loop.endsAfter k) :
    ∃ n w r, Advances library allowance p (before n w r) ∧ IsRewound x k p w r ∧ p.lines = n + 1 ∧
      r.isCancelled = p.run.isCancelled := by
  obtain ⟨bound, index, line, record, s, w, r, nodes, goesOn, rfl, hown, hrest, hstep, hback, hrun⟩ :=
    h.exists_execute hopen
  rw [LoopSite.stepLoop_eq _ hown, if_neg hgoesOn] at hstep
  obtain ⟨rfl, rfl⟩ := Prod.mk.inj (Except.ok.inj hstep)
  obtain rfl : goesOn = false := hback
  obtain ⟨w, r, hleft, ⟨capture, hw⟩, hsymbols, hticket⟩ := exists_left bound index line record
    ⟨(s.cursor.skipBlanks.skip "NEXT".length).skipBlanks, nodes, #[], _, _⟩
  have hmoved : Advances library allowance (inside bound index line record s) (before bound w r) := by
    rw [← hleft]
    exact .rewinds hrest hrun
  have hbuffer : s.walk.buffer = buffer := hp.within.buffer_eq
  have hnext : w.next = x.index := by
    rw [hw]
    exact congrArg Spot.index hx.resume_eq
  have hcolumn : w.resumeColumn = x.body.column := by
    rw [hw]
    exact congrArg Spot.column hx.resume_eq
  have hline : w.buffer.lines[w.next]? = some x.line := by
    rw [hnext, hw]
    dsimp only
    rw [hbuffer]
    exact hx.line_eq
  refine ⟨bound, w, r, hmoved, ⟨?_, hnext, hcolumn, hline, hsymbols.trans ?_⟩, rfl, hticket⟩
  · rw [hw]
  · rw [hw]
    rfl

/-- The line of a `FOR` is entered again where the body begins. -/
theorem IsRewound.isIteration {n : Nat} {w : Walk} {r : Run} (h : IsRewound x k p w r) (hx : x.IsOn buffer)
    (hb : Advances library allowance (before n w r) b) : IsIteration x (k + 1) b ∧ Binds x (k + 1) p b := by
  cases hb with
  | @enters n _ _ line hline =>
    obtain rfl : x.line = line := Option.some.inj (h.line_eq.symm.trans hline)
    have hbinds : Binds x (k + 1) p (inside n w.next x.line (w.recordsTree r) (w.entering r x.line)) :=
      ⟨p.run.symbols, .refl _, h.symbols_eq⟩
    have hcursor : (w.entering r x.line).cursor = x.body := by
      rw [Walk.entering, h.column_eq]
      exact hx.body_eq
    exact ⟨⟨⟨n, w.recordsTree r, w.entering r x.line, by rw [h.next_eq], hcursor⟩, h.own_eq, hbinds.value⟩, hbinds⟩

/-- Whether a stage is right after a `NEXT` that is executed at another one, with
only the scope of the loop closed. -/
def IsPastNext (own : List Frame) (p q : Stage) : Prop :=
  ∃ bound index line record s t, p = .inside bound index line record s ∧
    q = .inside bound index line record t ∧
    t.cursor = (s.cursor.skipBlanks.skip "NEXT".length).skipBlanks ∧
    t.walk = { s.walk with own } ∧ t.run = s.run

theorem IsPastNext.own_eq {own : List Frame} (h : IsPastNext own p q) : q.walk.own = own := by
  obtain ⟨bound, index, line, record, s, t, rfl, rfl, -, hwalk, -⟩ := h
  rw [walk, hwalk]

/-- After a `NEXT` that ends its loop the line goes on. -/
theorem IsMatching.done (h : p.IsMatching library allowance x.own.length) (hp : p.IsRegular buffer frames)
    (hopen : x.frame k :: x.own <:+ p.walk.own) (hdone : x.loop.endsAfter k) :
    ∃ q, Advances library allowance p q ∧ IsPastNext x.own p q := by
  obtain ⟨bound, index, line, record, s, w, r, nodes, goesOn, rfl, hown, hrest, hstep, hgoesOn, hrun⟩ :=
    h.exists_execute hopen
  rw [LoopSite.stepLoop_eq _ hown, if_pos hdone] at hstep
  obtain ⟨rfl, rfl⟩ := Prod.mk.inj (Except.ok.inj hstep)
  obtain rfl : goesOn = true := by
    rw [hgoesOn, Bool.not_eq_true']
    exact hp.onLine.2
  exact ⟨_, .executes hrest hrun, bound, index, line, record, s, _, rfl, rfl, rfl, rfl, rfl⟩

/-! ### All executions of the body -/

/-- Whether the `k`-th execution of the body is about to begin, after those before
it and nothing else, when a `FOR` is executed at `p`. -/
inductive Iterates (library : Library) (allowance : Allowance) (x : LoopSite) (p : Stage) : Nat → Stage → Prop
  | first {b : Stage} (hopens : Advances library allowance p b) : Iterates library allowance x p 0 b
  | next {k : Nat} {b e q b' : Stage} (hbefore : Iterates library allowance x p k b)
      (hbody : BodyPath library allowance x.own.length b e)
      (hmatching : e.IsMatching library allowance x.own.length) (hgoesOn : ¬ x.loop.endsAfter k)
      (hback : Advances library allowance e q) (henters : Advances library allowance q b') :
      Iterates library allowance x p (k + 1) b'

theorem Iterates.path (h : Iterates library allowance x p k b) :
    Relation.ReflTransGen (Advances library allowance) p b := by
  induction h with
  | first hopens => exact .single hopens
  | next _ hbody _ _ hback henters ih => exact ((ih.trans hbody.path).tail hback).tail henters

/-- There is one stage at which the `k`-th execution of the body begins. -/
theorem Iterates.unique (h : Iterates library allowance x p k b) {b' : Stage}
    (h' : Iterates library allowance x p k b') : b = b' := by
  induction h generalizing b' with
  | first hopens =>
    cases h' with
    | first hopens' => exact hopens.unique hopens'
  | next _ hbody hmatching _ hback henters ih =>
    cases h' with
    | next hbefore' hbody' hmatching' _ hback' henters' =>
      obtain rfl := ih hbefore'
      obtain rfl := hmatching.unique hbody hbody' hmatching'
      obtain rfl := hback.unique hback'
      exact henters.unique henters'

section
variable (hopens : Opens library allowance buffer frames x p b₀)
include hopens

/-- Each execution of the body begins in the scope of the loop, which has just been
entered, with the variable just bound. -/
theorem Iterates.isIteration (h : Iterates library allowance x p k b) :
    IsIteration x k b ∧
      ∃ p' m, Reaches p.moment p'.moment ∧ Enters p'.moment m ∧ m.frames = b.walk.frames ∧ Binds x k p' b := by
  have hp := hopens.regular
  induction h with
  | @first b hb =>
    obtain rfl := hb.unique hopens.advances
    refine ⟨hopens.isIteration, p, _, .refl, .opened (.loop x.loop) x.openedAt ?_, ?_, hopens.binds⟩
    · rintro l ⟨⟩
      exact hopens.plain
    · rw [(hp.path (.single hb)).frames_eq, hopens.isIteration.own_eq, hp.frames_eq, hopens.own_eq, ← hopens.id_eq]
      rfl
  | @next k b e q b' hbefore hbody hmatching hgoesOn hback henters ih =>
    have hpath := hbefore.path.trans hbody.path
    have he := hp.path hpath
    have hopen := ih.1.suffix hbody
    obtain ⟨n, w, r, hmoved, hrewound, -⟩ := hmatching.rewinds he hopens.site hopen hgoesOn
    obtain rfl := hback.unique hmoved
    obtain ⟨hb', hbinds⟩ := hrewound.isIteration hopens.site henters
    have hown := (hopen.eq_of_length hmatching.innermost.symm).symm
    have hentered : Enters e.moment ⟨x.frame (k + 1) :: (x.own ++ frames), e.run⟩ := by
      rw [moment, he.frames_eq, hown]
      exact .iterated rfl (by rw [Loop.next?_turn, if_neg hgoesOn])
    obtain ⟨hreaches, -⟩ := reaches_path (fun n _ => reaches_runBufferWithin n) hpath hp.capture
    refine ⟨hb', e, _, hreaches, hentered, ?_, hbinds⟩
    rw [(hp.path ((hpath.tail hback).tail henters)).frames_eq, hb'.own_eq]
    rfl

theorem Iterates.frames_eq (h : Iterates library allowance x p k b) :
    b.walk.frames = x.frame k :: p.walk.frames := by
  have hp := hopens.regular
  rw [(hp.path h.path).frames_eq, (h.isIteration hopens).1.own_eq, hp.frames_eq, hopens.own_eq]
  rfl

/-- In a pass that begins with plain names, the variable is never defined before
it is bound. -/
theorem Iterates.hasVariable (h : Iterates library allowance x p k b) {m₀ : Moment} (hformed : m₀.IsFormed)
    (hplain : m₀.run.symbols.HasPlainNames) (hreaches : Reaches m₀ p.moment) :
    b.moment.HasVariable (x.loop.turn k) b.walk.frames := by
  have hframes := h.frames_eq hopens
  obtain ⟨-, p', m, hp', henters, hm, hbinds⟩ := h.isIteration hopens
  apply hbinds.hasVariable
  rw [hframes]
  exact Moment.not_contains_entered hformed hplain (hreaches.trans hp') henters (hm.trans hframes) hopens.plain

/-- All through an execution of the body the scope of the loop is open, and the
variable has its value if its symbol has no place of definition. -/
theorem Iterates.during (h : Iterates library allowance x p k b)
    (hbody : BodyPath library allowance x.own.length b q) :
    x.frame k :: p.walk.frames <:+ q.walk.frames ∧
      (b.moment.HasVariable (x.loop.turn k) b.walk.frames →
        q.run.symbols.value? (fullName x.loop.name b.walk.frames) = some (.num (x.loop.valueAt k))) := by
  have hp := hopens.regular
  have hb := hp.path h.path
  have hq := hb.path hbody.path
  have hframes := h.frames_eq hopens
  obtain ⟨above, habove⟩ := (h.isIteration hopens).1.suffix hbody
  have hopen : x.frame k :: p.walk.frames <:+ q.walk.frames := by
    refine ⟨above, ?_⟩
    rw [hq.frames_eq, ← habove, hp.frames_eq, hopens.own_eq, List.append_assoc]
    rfl
  refine ⟨hopen, fun hvariable => ?_⟩
  obtain ⟨hreaches, -⟩ := reaches_path (fun n _ => reaches_runBufferWithin n) hbody.path hb.capture
  have hbegun : x.frame k :: p.walk.frames <:+ b.walk.frames := ⟨[], hframes.symm⟩
  rw [hframes] at hvariable ⊢
  exact (hvariable.reaches hb.formed hbegun rfl hreaches hopen).value

/-- Each execution of the body leads to the next one until the loop is done. -/
theorem exists_iterates {n : Nat} (hgoesOn : ∀ k < n, ¬ x.loop.endsAfter k)
    (hbody : ∀ k < n, ∀ b, Iterates library allowance x p k b →
      ∃ e, BodyPath library allowance x.own.length b e ∧ e.IsMatching library allowance x.own.length ∧
        1 < e.lines ∧ e.run.isCancelled = false) :
    ∀ k ≤ n, ∃ b, Iterates library allowance x p k b
  | 0, _ => ⟨b₀, .first hopens.advances⟩
  | k + 1, hk => by
    obtain ⟨b, hb⟩ := exists_iterates hgoesOn hbody k (by omega)
    obtain ⟨e, hpath, hmatching, hlines, hcancelled⟩ := hbody k hk b hb
    have hopen := (hb.isIteration hopens).1.suffix hpath
    obtain ⟨m, w, r, hback, hrewound, hm, hticket⟩ :=
      hmatching.rewinds (hopens.regular.path (hb.path.trans hpath.path)) hopens.site hopen (hgoesOn k hk)
    obtain ⟨m, rfl⟩ : ∃ n, m = n + 1 := ⟨m - 1, by omega⟩
    exact ⟨_, .next hb hpath hmatching (hgoesOn k hk) hback
      (.enters hrewound.line_eq (hticket.trans hcancelled))⟩

end
end Stage

open Stage (BodyPath Iterates) in
/-- A `FOR` is the repeated execution of its body. Let a walk over any buffer get
to a `FOR` with a start, a limit and a step that is not zero. Let the loop not be
done before the `n`-th execution of the body, and let the body, each time it is
executed, come without a problem and without executing a text to a `NEXT` that
matches, with lines left if the loop goes on.

The body is executed for `k = 0, …, n` in this order, each time from the column
right after the arguments. All through the `k`-th execution the scope of the loop
is open with its own number and the count `k`, above the scopes of the `FOR`.
The variable is bound to the `k`-th value when it begins, and until it ends if the
symbol of the variable has no place of definition. That is always so in a pass
that begins with plain names.

If the loop is done after the `n`-th execution, exactly its scope is closed and
the walk goes on right after the `NEXT`. -/
theorem forLoop_iterates {library : Library} {allowance : Allowance} {buffer : Buffer} {frames : List Frame}
    {r : Run} {start bound index : Nat} {line : String} {record : Bool} {s t : LineState} {l : Loop} {n : Nat}
    (hformed : (⟨frames, r⟩ : Moment).IsFormed)
    (hreached : Relation.ReflTransGen (Stage.Advances library allowance)
      (.before start (.start buffer frames) r) (.inside bound index line record s))
    (hstands : ∃ past, s.cursor.Stands line.toList past)
    (hstarts : s.StartsLoop (.ofLine library allowance bound index) l t)
    (hgoesOn : ∀ k < n, ¬ l.endsAfter k)
    (hbody : ∀ k ≤ n, ∀ b,
      Iterates library allowance (.ofFor index line s l t) (.inside bound index line record s) k b →
      ∃ e, BodyPath library allowance s.walk.own.length b e ∧
        e.IsMatching library allowance s.walk.own.length ∧
        (k < n → 1 < e.lines ∧ e.run.isCancelled = false)) :
    let x : LoopSite := .ofFor index line s l t
    let p : Stage := .inside bound index line record s
    (∀ k ≤ n, ∃ b, Iterates library allowance x p k b ∧
      ∀ b', Iterates library allowance x p k b' → b' = b) ∧
    (∀ k b, Iterates library allowance x p k b →
      b.IsIteration x k ∧ b.walk.frames = x.frame k :: s.walk.frames ∧
      ∀ q, BodyPath library allowance s.walk.own.length b q →
        x.frame k :: s.walk.frames <:+ q.walk.frames ∧
        (b.moment.HasVariable (l.turn k) b.walk.frames →
          q.run.symbols.value? (fullName l.name b.walk.frames) = some (.num (l.valueAt k)))) ∧
    (∀ m₀ : Moment, m₀.IsFormed → m₀.run.symbols.HasPlainNames → Reaches m₀ ⟨frames, r⟩ →
      ∀ k b, Iterates library allowance x p k b → b.moment.HasVariable (l.turn k) b.walk.frames) ∧
    (l.endsAfter n → ∃ b e q, Iterates library allowance x p n b ∧
      BodyPath library allowance s.walk.own.length b e ∧ e.IsMatching library allowance s.walk.own.length ∧
      Stage.Advances library allowance e q ∧ Stage.IsPastNext s.walk.own e q ∧
      q.walk.frames = s.walk.frames ∧ p.outcome library allowance = q.outcome library allowance) := by
  intro x p
  have hp := (Stage.isRegular_start hformed).path hreached
  obtain ⟨b₀, hopens⟩ := Stage.exists_opens hp hstarts hstands
  have hexists := Stage.exists_iterates hopens hgoesOn fun k hk b hb => by
    obtain ⟨e, hpath, hmatching, hlines⟩ := hbody k (by omega) b hb
    exact ⟨e, hpath, hmatching, hlines hk⟩
  refine ⟨fun k hk => ?_, fun k b hb => ?_, fun m₀ hm₀ hplain hreaches k b hb => ?_, fun hdone => ?_⟩
  · obtain ⟨b, hb⟩ := hexists k hk
    exact ⟨b, hb, fun b' hb' => hb'.unique hb⟩
  · exact ⟨(hb.isIteration hopens).1, hb.frames_eq hopens, fun q hq => hb.during hopens hq⟩
  · obtain ⟨hfrom, -⟩ := Stage.reaches_path (fun n _ => reaches_runBufferWithin n) hreached
      (Stage.isRegular_start hformed).capture
    exact hb.hasVariable hopens hm₀ hplain (hreaches.trans hfrom)
  · obtain ⟨b, hb⟩ := hexists n (Nat.le_refl n)
    obtain ⟨e, hpath, hmatching, -⟩ := hbody n (Nat.le_refl n) b hb
    have he := hb.path.trans hpath.path
    have hopen := (hb.isIteration hopens).1.suffix hpath
    obtain ⟨q, hstep, hpast⟩ := hmatching.done (hp.path he) hopen hdone
    refine ⟨b, e, q, hb, hpath, hmatching, hstep, hpast, ?_, Stage.outcome_eq_of_path (he.tail hstep)⟩
    rw [((hp.path he).path (.single hstep)).frames_eq, hpast.own_eq]
    exact hp.frames_eq.symm

/-- A loop whose body begins on the line of its `FOR` and is executed twice. -/
def loopSample : Buffer := .ofText 0 "FOR i,1,2:a=i\nNEXT\n" 0 none

def loopSampleRun : Run := .start ⟨[], 0, none⟩ 0 .never 0

/-- The state at the `FOR` of the sample, in a first pass. -/
def loopSampleState : LineState := (Walk.start loopSample []).entering loopSampleRun "FOR i,1,2:a=i"

/-- The stages of the sample, from its `FOR` on. -/
def loopSampleStage : Nat → Stage
  | 0 =>
    .inside 8 0 "FOR i,1,2:a=i" ((Walk.start loopSample []).recordsTree loopSampleRun) loopSampleState
  | k + 1 => ((loopSampleStage k).advance? (.ofFiles []) fullAllowance).getD (loopSampleStage k)

theorem advances_loopSampleStage {k : Nat} (hk : k < 12) :
    (loopSampleStage k).Advances (.ofFiles []) fullAllowance (loopSampleStage (k + 1)) := by
  have hsome : ∀ k < 12, ((loopSampleStage k).advance? (.ofFiles []) fullAllowance).isSome = true := by
    decide +kernel
  obtain ⟨q, hq⟩ := Option.isSome_iff_exists.mp (hsome k hk)
  rw [Stage.advances_iff, loopSampleStage, hq]
  rfl

theorem loopSampleStage_zero : loopSampleStage 0 =
    .inside 8 0 "FOR i,1,2:a=i" ((Walk.start loopSample []).recordsTree loopSampleRun) loopSampleState := rfl

attribute [irreducible] loopSampleStage

/-- The body of the sample has four steps: a colon, an assignment, the end of the
line and the line of the `NEXT`. -/
theorem bodyPath_loopSampleStage {k : Nat} (hk : k = 1 ∨ k = 7) :
    Stage.BodyPath (.ofFiles []) fullAllowance 0 (loopSampleStage k) (loopSampleStage (k + 4)) ∧
      (loopSampleStage (k + 4)).IsMatching (.ofFiles []) fullAllowance 0 := by
  have hinside : ∀ k ∈ [1, 2, 3, 4, 7, 8, 9, 10],
      (loopSampleStage k).IsSmooth (.ofFiles []) fullAllowance ∧
      (loopSampleStage k).directive? ≠ some .asm ∧ (loopSampleStage k).directive? ≠ some .next := by
    decide +kernel
  have hend : ∀ k ∈ [5, 11], (loopSampleStage k).directive? = some .next ∧
      (loopSampleStage k).IsSmooth (.ofFiles []) fullAllowance ∧ (loopSampleStage k).walk.own.length = 0 + 1 := by
    decide +kernel
  have hstep (k : Nat) (hk : k ∈ [1, 2, 3, 4, 7, 8, 9, 10]) :
      Stage.BodyStep (.ofFiles []) fullAllowance 0 (loopSampleStage k) (loopSampleStage (k + 1)) := by
    obtain ⟨hsmooth, hasm, hnext⟩ := hinside k hk
    have hlast : k < 12 := by
      simp only [List.mem_cons, List.not_mem_nil, or_false] at hk
      omega
    exact ⟨advances_loopSampleStage hlast, hsmooth, hasm, fun h => absurd h hnext⟩
  constructor
  · refine .tail (.tail (.tail (.single (hstep k ?_)) (hstep (k + 1) ?_)) (hstep (k + 2) ?_)) (hstep (k + 3) ?_)
    all_goals rcases hk with rfl | rfl <;> decide
  · obtain ⟨hdirective, hsmooth, hown⟩ := hend (k + 4) (by rcases hk with rfl | rfl <;> decide)
    exact ⟨hdirective, hsmooth, hown⟩

theorem forLoop_iterates_twice :
    ∃ l t b e q, loopSampleState.StartsLoop (.ofLine (.ofFiles []) fullAllowance 8 0) l t ∧
      (¬ l.endsAfter 0 ∧ l.endsAfter 1) ∧
      Stage.Iterates (.ofFiles []) fullAllowance (.ofFor 0 "FOR i,1,2:a=i" loopSampleState l t)
        (loopSampleStage 0) 1 b ∧
      Stage.BodyPath (.ofFiles []) fullAllowance 0 b e ∧
      e.run.symbols.value? (fullName l.name b.walk.frames) = some (.num (l.valueAt 1)) ∧
      Stage.IsPastNext [] e q := by
  let env : Setting := .ofLine (.ofFiles []) fullAllowance 8 0
  have hread : (match LineM.readLoop env
      { loopSampleState with cursor := loopSampleState.cursor.skipBlanks.skip "FOR".length, parts := #[] } with
      | .ok l _ => !(l.step == 0) && !decide (l.endsAfter 0) && decide (l.endsAfter 1)
      | .error _ _ => false) = true := by decide +kernel
  split at hread
  · rename_i l t hreads
    simp only [Bool.and_eq_true, Bool.not_eq_true', decide_eq_true_eq, decide_eq_false_iff_not] at hread
    obtain ⟨⟨hstep, hfirst⟩, hsecond⟩ := hread
    have hdirective : LineM.directive? { loopSampleState with cursor := loopSampleState.cursor.skipBlanks } =
        some .forLoop := by decide +kernel
    have hstarts : loopSampleState.StartsLoop env l t := ⟨hdirective, hreads, hstep, by decide⟩
    obtain ⟨hbody₀, hnext₀⟩ := bodyPath_loopSampleStage (Or.inl rfl)
    obtain ⟨hbody₁, hnext₁⟩ := bodyPath_loopSampleStage (Or.inr rfl)
    have h₀ : Stage.Iterates (.ofFiles []) fullAllowance (.ofFor 0 "FOR i,1,2:a=i" loopSampleState l t)
        (loopSampleStage 0) 0 (loopSampleStage 1) := .first (advances_loopSampleStage (by decide))
    have h₁ : Stage.Iterates (.ofFiles []) fullAllowance (.ofFor 0 "FOR i,1,2:a=i" loopSampleState l t)
        (loopSampleStage 0) 1 (loopSampleStage 7) :=
      .next h₀ hbody₀ hnext₀ hfirst (advances_loopSampleStage (by decide)) (advances_loopSampleStage (by decide))
    have hlines : 1 < (loopSampleStage 5).lines ∧ (loopSampleStage 5).run.isCancelled = false := by
      decide +kernel
    have hline : (Walk.start loopSample []).buffer.lines[(Walk.start loopSample []).next]? =
        some "FOR i,1,2:a=i" := by decide +kernel
    have hreached : Relation.ReflTransGen (Stage.Advances (.ofFiles []) fullAllowance)
        (.before 9 (.start loopSample []) loopSampleRun) (loopSampleStage 0) := by
      rw [loopSampleStage_zero]
      exact .single (.enters hline rfl)
    have hstands : loopSampleState.cursor.Stands "FOR i,1,2:a=i".toList [] :=
      ⟨by decide +kernel, by decide +kernel⟩
    have hformed : (⟨[], loopSampleRun⟩ : Moment).IsFormed :=
      ⟨.nil, fun _ hf => absurd hf List.not_mem_nil, fun _ hf => absurd hf List.not_mem_nil,
        (fun _ _ hm => by cases hm)⟩
    have hnames : loopSampleRun.symbols.HasPlainNames := hasPlainNames_initialSymbols fun _ h => by cases h
    rw [loopSampleStage_zero] at hreached h₀ h₁ ⊢
    have hbody (k : Nat) (hk : k ≤ 1) (b : Stage) (hb : Stage.Iterates (.ofFiles []) fullAllowance
        (.ofFor 0 "FOR i,1,2:a=i" loopSampleState l t) (.inside 8 0 "FOR i,1,2:a=i"
          ((Walk.start loopSample []).recordsTree loopSampleRun) loopSampleState) k b) :
        ∃ e, Stage.BodyPath (.ofFiles []) fullAllowance 0 b e ∧ e.IsMatching (.ofFiles []) fullAllowance 0 ∧
          (k < 1 → 1 < e.lines ∧ e.run.isCancelled = false) := by
      obtain rfl | rfl : k = 0 ∨ k = 1 := by omega
      · obtain rfl := hb.unique h₀
        exact ⟨_, hbody₀, hnext₀, fun _ => hlines⟩
      · obtain rfl := hb.unique h₁
        exact ⟨_, hbody₁, hnext₁, fun h => by omega⟩
    have hgoesOn (k : Nat) (hk : k < 1) : ¬ l.endsAfter k := by
      obtain rfl : k = 0 := by omega
      exact hfirst
    obtain ⟨-, hduring, hplain, hdone⟩ := forLoop_iterates hformed hreached ⟨[], hstands⟩ hstarts hgoesOn hbody
    obtain ⟨b, e, q, hb, hpath, -, -, hpast, -⟩ := hdone hsecond
    refine ⟨l, t, b, e, q, hstarts, ⟨hfirst, hsecond⟩, hb, hpath, ?_, hpast⟩
    exact ((hduring 1 b hb).2.2 e hpath).2 (hplain _ hformed hnames .refl 1 b hb)
  · cases hread

/-- A loop in whose body the first pass, and only that, opens a scope around an
assignment. -/
def overwriteSample : String :=
  "IF fwd=P%\nELSE\n\x7b\nENDIF\nFOR i,3,3\nIF fwd=P%\n\x7b\nENDIF\ni=5\nIF fwd=P%\n\x7d\nENDIF\n" ++
    "ORG i\nNEXT\nIF fwd=P%\nELSE\n\x7d\nENDIF\nfwd=100\n"

/-- A variable whose symbol has a place of definition does not keep its value: the
loop runs for the value 3 only, but the assignment in its body makes it 5, and no
problem is reported. -/
theorem forLoop_variable_overwritten :
    (assembleWithin 25 (.ofFiles [(⟨"main"⟩, overwriteSample.toUTF8)]) ⟨"main"⟩ ⟨[], 0, none⟩ 0 .never 0).result.toOption.map
      (fun a => (a.run.reports.size, a.run.symbols.value? "i@2_0@1_0", a.run.code.pc)) =
        some (0, some (.num 5), 5) := by decide +kernel

end Asm6502
