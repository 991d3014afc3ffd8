/-
# Sessions

A run for a ticket is cancelled exactly if it is overtaken before its end, and
otherwise its assembly is the one that a run makes which nothing can overtake.
From this follows what a session promises, in whatever order runs are started,
cancelled and published: the latest run is the only one that is not overtaken,
and only its assembly can become the current one.

Key definitions: `OutcomePaces`, `Session.Reparsed`, `Chronicle`, `Chronicle.Steps`.
Key theorems: `paces_assembleWithin`, `assembly_whole_or_cancelled`,
`Session.reparsed`, `Chronicle.Steps.isOrderly`, `Chronicle.session_safety`.
-/
import Asm6502.Proofs.Walk.Cancellation
import Asm6502.Session

namespace Asm6502

section
variable {library : Library} {bound file k : Nat} {text : String} {r r₁ : Run}

/-! ### The end of a run -/

/-- What a run comes to after its last pass, which began in a generation. -/
def closing (generation : Nat) : Option Run → Outcome
  | none => ⟨.error .exhausted, generation⟩
  | some r => if r.isCancelled then ⟨.error .cancelled, r.generation⟩ else ⟨.ok ⟨r⟩, r.generation⟩

theorem closing_of_isCancelled {generation : Nat} (h : r.isCancelled = true) :
    closing generation (some r) = ⟨.error .cancelled, r.generation⟩ := if_pos h

theorem closing_of_goesOn {generation : Nat} (h : r.isCancelled = false) :
    closing generation (some r) = ⟨.ok ⟨r⟩, r.generation⟩ := if_neg (by simp [h])

theorem runPasses_of_none (h : runPass library bound file text .first r = none) :
    runPasses library bound file text r = ⟨.error .exhausted, r.generation⟩ := by
  unfold runPasses
  rw [h]

theorem runPasses_of_isCancelled (h : runPass library bound file text .first r = some r₁)
    (hcancelled : r₁.isCancelled = true) :
    runPasses library bound file text r = ⟨.error .cancelled, r₁.generation⟩ := by
  unfold runPasses
  rw [h]
  exact if_pos hcancelled

theorem runPasses_of_goesOn (h : runPass library bound file text .first r = some r₁)
    (hgoesOn : r₁.isCancelled = false) :
    runPasses library bound file text r = closing r₁.generation (runPass library bound file text .second r₁) := by
  unfold runPasses
  rw [h]
  dsimp only
  rw [if_neg (by simp [hgoesOn])]
  rfl

theorem Run.isCancelled_freed (r : Run) : r.freed.isCancelled = false := rfl

theorem Run.isCancelled_of_never (h : r.ticket = .never) : r.isCancelled = false := by
  rw [Run.isCancelled, h]
  rfl

/-- What assembling a document comes to for a ticket of a session, against what
it comes to where nothing can overtake it. -/
inductive OutcomePaces (k : Nat) : Outcome → Outcome → Prop
  | exhausted {generation generation' : Nat} :
      OutcomePaces k ⟨.error .exhausted, generation⟩ ⟨.error .exhausted, generation'⟩
  | whole {r : Run} (hticket : r.ticket = .issued k) (hgeneration : r.generation = k) :
      OutcomePaces k ⟨.ok ⟨r⟩, r.generation⟩ ⟨.ok ⟨r.freed⟩, r.generation⟩
  | overtaken {generation : Nat} {free : Outcome} (hlate : k < generation)
      (hfree : free.result = .error .exhausted ∨ ∃ a, free.result = .ok a ∧ k < free.generation) :
      OutcomePaces k ⟨.error .cancelled, generation⟩ free

/-- A run that nothing can overtake has a result, though others have begun. -/
theorem closing_of_never {generation : Nat} {last : Option Run} (hlast : ∀ r, last = some r → r.ticket = .never)
    (hlate : ∀ r, last = some r → k < r.generation) :
    (closing generation last).result = .error .exhausted ∨
      ∃ a, (closing generation last).result = .ok a ∧ k < (closing generation last).generation := by
  cases last with
  | none => exact .inl rfl
  | some r =>
    rw [closing_of_goesOn (Run.isCancelled_of_never (hlast r rfl))]
    exact .inr ⟨⟨r⟩, rfl, hlate r rfl⟩

theorem paces_closing {held free : Option Run} {generation generation' : Nat} (hheld : ∀ r, held = some r → r.Holds k)
    (hfree : ∀ r, free = some r → r.ticket = .never) (h : RunPaces k held free) :
    OutcomePaces k (closing generation held) (closing generation' free) := by
  rcases h with rfl | ⟨⟨r, rfl, hover⟩, hlate⟩
  · cases held with
    | none => exact .exhausted
    | some r =>
      have hr : r.Holds k := hheld r rfl
      cases hcancelled : r.isCancelled with
      | true =>
        rw [closing_of_isCancelled hcancelled]
        have hlate : k < r.generation := (hr.isCancelled_iff.mp hcancelled).generation
        exact .overtaken hlate (closing_of_never hfree fun r' hr' => by cases hr'; exact hlate)
      | false =>
        have hgeneration : r.generation = k := by
          have hover : ¬ k < r.generation := fun hlate => by
            rw [hr.isCancelled_iff.mpr ⟨hr.ticket, hlate⟩] at hcancelled
            cases hcancelled
          have := hr.generation
          omega
        rw [closing_of_goesOn hcancelled]
        exact .whole hr.ticket hgeneration
  · rw [closing_of_isCancelled hover.isCancelled]
    exact .overtaken hover.generation (closing_of_never hfree hlate)

/-- Both passes come to the same in a run that holds a ticket as in one that
nothing can overtake, unless the run is overtaken. -/
theorem paces_runPasses (hr : r.Holds k) :
    OutcomePaces k (runPasses library bound file text r) (runPasses library bound file text r.freed) := by
  have hnever {pass : Pass} {r r' : Run} (hticket : r.ticket = .never)
      (h : runPass library bound file text pass r = some r') : r'.ticket = .never :=
    (precedes_runPass h).ticket.trans hticket
  -- the free run, once others have begun
  have hfree (r₁ : Run) (h : runPass library bound file text .first r.freed = some r₁) (hlate : k < r₁.generation) :
      (runPasses library bound file text r.freed).result = .error .exhausted ∨
        ∃ a, (runPasses library bound file text r.freed).result = .ok a ∧
          k < (runPasses library bound file text r.freed).generation := by
    have hticket : r₁.ticket = .never := hnever rfl h
    rw [runPasses_of_goesOn h (Run.isCancelled_of_never hticket)]
    exact closing_of_never (fun _ hr₂ => hnever hticket hr₂)
      fun _ hr₂ => Nat.lt_of_lt_of_le hlate (precedes_runPass hr₂).generation
  have hpaces : RunPaces k (runPass library bound file text .first r) (runPass library bound file text .first r.freed) :=
    paces_runPass hr
  rcases hpaces with hagree | ⟨⟨r₁, hheld, hover⟩, hlate⟩
  · cases hheld : runPass library bound file text .first r with
    | none =>
      rw [hheld] at hagree
      rw [runPasses_of_none hheld, runPasses_of_none hagree]
      exact .exhausted
    | some r₁ =>
      rw [hheld] at hagree
      have hr₁ : r₁.Holds k := hr.of_precedes (precedes_runPass hheld)
      cases hcancelled : r₁.isCancelled with
      | true =>
        have hlate : k < r₁.generation := (hr₁.isCancelled_iff.mp hcancelled).generation
        rw [runPasses_of_isCancelled hheld hcancelled]
        exact .overtaken hlate (hfree _ hagree hlate)
      | false =>
        rw [runPasses_of_goesOn hheld hcancelled, runPasses_of_goesOn hagree r₁.isCancelled_freed]
        exact paces_closing (fun _ hr₂ => hr₁.of_precedes (precedes_runPass hr₂)) (fun _ hr₂ => hnever rfl hr₂)
          (paces_runPass hr₁)
  · rw [runPasses_of_isCancelled hheld hover.isCancelled]
    refine .overtaken hover.generation ?_
    cases hfirst : runPass library bound file text .first r.freed with
    | none =>
      rw [runPasses_of_none hfirst]
      exact .inl rfl
    | some r₁ => exact hfree r₁ hfirst (hlate r₁ hfirst)

/-- The run that a readable document is assembled in. -/
def Run.opened (library : Library) (path : Path) (options : Options) (clock : Int) (ticket : Ticket)
    (generation : Nat) : Run :=
  { (Run.start options clock ticket generation).noteRead (library.interruptions · path) with files := #[path] }

section
variable {path : Path} {options : Options} {clock : Int} {ticket : Ticket} {generation : Nat}

theorem assembleWithin_of_readable (hread : library.readText path = .ok text) :
    assembleWithin bound library path options clock ticket generation =
      runPasses library bound 0 text (.opened library path options clock ticket generation) := by
  have hfile : ((Run.start options clock ticket generation).noteRead (library.interruptions · path)).addFile path =
      (0, .opened library path options clock ticket generation) := by
    have hnone : ((Run.start options clock ticket generation).noteRead (library.interruptions · path)).fileIndex? path =
        none := Array.findIdx?_empty
    unfold Run.addFile
    rw [hnone]
    rfl
  unfold assembleWithin
  rw [hread]
  dsimp only
  rw [hfile]

theorem assembleWithin_of_unreadable {error : FileError} (hread : library.readText path = .error error) :
    assembleWithin bound library path options clock ticket generation =
      ⟨.error (.unreadable path error), generation + library.interruptions 0 path⟩ := by
  unfold assembleWithin
  rw [hread]
  rfl

theorem Run.holds_opened (hk : k ≤ generation) : (Run.opened library path options clock (.issued k) generation).Holds k :=
  ⟨rfl, Nat.le_trans hk (Nat.le_add_right _ _)⟩

theorem paces_assembleWithin (hk : k ≤ generation) (hread : library.readText path = .ok text) :
    OutcomePaces k (assembleWithin bound library path options clock (.issued k) generation)
      (assembleWithin bound library path options clock .never generation) := by
  rw [assembleWithin_of_readable hread, assembleWithin_of_readable hread]
  exact paces_runPasses (Run.holds_opened hk)

/-- A document that can be read is assembled for a ticket as it is where nothing
can overtake the run, unless the run is overtaken before its end. Then, and only
then, it is cancelled, and no part of its assembly is handed out. -/
theorem assembly_whole_or_cancelled (bound : Nat) (library : Library) (path : Path) (options : Options) (clock : Int)
    (k generation : Nat) (text : String) (hk : k ≤ generation) (hread : library.readText path = .ok text) :
    let held := assembleWithin bound library path options clock (.issued k) generation
    let free := assembleWithin bound library path options clock .never generation
    (held.result ≠ .error .exhausted → (held.result = .error .cancelled ↔ k < held.generation)) ∧
    (∀ a, held.result = .ok a → a.run.ticket = .issued k ∧ free.result = .ok ⟨{ a.run with ticket := .never }⟩) ∧
    (∀ error, held.result = .error error → error = .cancelled ∨ error = .exhausted) ∧
    (held.result = .error .exhausted → free.result = .error .exhausted) ∧
    (∀ a, free.result = .ok a → held.result =
      if k < free.generation then .error .cancelled else .ok ⟨{ a.run with ticket := .issued k }⟩) := by
  intro held free
  have hpaces : OutcomePaces k held free := paces_assembleWithin hk hread
  generalize held = held, free = free at hpaces ⊢
  cases hpaces with
  | exhausted =>
    refine ⟨fun h => absurd rfl h, by rintro _ ⟨⟩, fun error h => ?_, fun _ => rfl, by rintro _ ⟨⟩⟩
    cases h
    exact .inr rfl
  | whole hticket hgeneration =>
    refine ⟨fun _ => ⟨by rintro ⟨⟩, fun h => ?_⟩, fun a h => ?_, by rintro _ ⟨⟩, by rintro ⟨⟩, fun a h => ?_⟩
    · exact absurd h (Nat.not_lt.mpr (Nat.le_of_eq hgeneration))
    · cases h
      exact ⟨hticket, rfl⟩
    · cases h
      rw [if_neg (Nat.not_lt.mpr (Nat.le_of_eq hgeneration)), ← hticket]
      rfl
  | overtaken hlate hfree =>
    refine ⟨fun _ => ⟨fun _ => hlate, fun _ => rfl⟩, by rintro _ ⟨⟩, fun error h => ?_, by rintro ⟨⟩, fun a h => ?_⟩
    · cases h
      exact .inl rfl
    · rcases hfree with hfree | ⟨a', -, hlate'⟩
      · rw [h] at hfree
        cases hfree
      · rw [if_pos hlate']

/-- Another run begins while the second pass reads the included file. -/
def overtakenSample : Library :=
  { Library.ofFiles [(⟨"main"⟩, "INCLUDE \"part\"\nEQUB 1\n".toUTF8), (⟨"part"⟩, "EQUB 2\n".toUTF8)] with
    interruptions := fun n _ => if n = 2 then 1 else 0 }

theorem assembly_cancelled_in_second_pass :
    overtakenSample.readText ⟨"main"⟩ = .ok "INCLUDE \"part\"\nEQUB 1\n" ∧
      (assembleWithin 5 overtakenSample ⟨"main"⟩ ⟨[], 0, none⟩ 0 .never 1).result.toBool = true ∧
      (assembleWithin 5 overtakenSample ⟨"main"⟩ ⟨[], 0, none⟩ 0 .never 1).generation = 2 ∧
      (assembleWithin 5 overtakenSample ⟨"main"⟩ ⟨[], 0, none⟩ 0 (.issued 1) 1).result = .error .cancelled := by
  have hread : overtakenSample.readText ⟨"main"⟩ = .ok "INCLUDE \"part\"\nEQUB 1\n" := by decide +kernel
  have hfree : (assembleWithin 5 overtakenSample ⟨"main"⟩ ⟨[], 0, none⟩ 0 .never 1).result.toBool = true := by
    decide +kernel
  have hgeneration : (assembleWithin 5 overtakenSample ⟨"main"⟩ ⟨[], 0, none⟩ 0 .never 1).generation = 2 := by
    decide +kernel
  refine ⟨hread, hfree, hgeneration, ?_⟩
  cases hresult : (assembleWithin 5 overtakenSample ⟨"main"⟩ ⟨[], 0, none⟩ 0 .never 1).result with
  | error error =>
    rw [hresult] at hfree
    cases hfree
  | ok a =>
    have hwhole := assembly_whole_or_cancelled 5 overtakenSample ⟨"main"⟩ ⟨[], 0, none⟩ 0 1 1 _ (Nat.le_refl 1) hread
    exact (hwhole.2.2.2.2 a hresult).trans (if_pos (by rw [hgeneration]; decide))

end

/-! ### What a reparse comes to -/

theorem le_generation_runPasses : r.generation ≤ (runPasses library bound file text r).generation := by
  cases hfirst : runPass library bound file text .first r with
  | none =>
    rw [runPasses_of_none hfirst]
  | some r₁ =>
    have htime₁ := (precedes_runPass hfirst).generation
    cases hcancelled : r₁.isCancelled with
    | true =>
      rw [runPasses_of_isCancelled hfirst hcancelled]
      exact htime₁
    | false =>
      rw [runPasses_of_goesOn hfirst hcancelled]
      cases hsecond : runPass library bound file text .second r₁ with
      | none => exact htime₁
      | some r₂ =>
        have htime₂ := (precedes_runPass hsecond).generation
        cases hlast : r₂.isCancelled with
        | true =>
          rw [closing_of_isCancelled hlast]
          exact htime₁.trans htime₂
        | false =>
          rw [closing_of_goesOn hlast]
          exact htime₁.trans htime₂

theorem le_generation_assembleWithin {path : Path} {options : Options} {clock : Int} {ticket : Ticket}
    {generation : Nat} :
    generation ≤ (assembleWithin bound library path options clock ticket generation).generation := by
  cases hread : library.readText path with
  | error error =>
    rw [assembleWithin_of_unreadable hread]
    exact Nat.le_add_right _ _
  | ok text =>
    rw [assembleWithin_of_readable hread]
    have hopened : generation ≤ (Run.opened library path options clock ticket generation).generation :=
      Nat.le_add_right _ _
    exact hopened.trans le_generation_runPasses

end

namespace Session

/-- What a reparse comes to: its result and the session that it leaves. -/
inductive Reparsed (s : Session) (library : Library) (path : Path) :
    Except AssembleError (Option Assembly) × Session → Prop
  | unreadable {error : FileError} {generation : Nat} (hread : library.readText path = .error error)
      (htime : s.generation + 1 ≤ generation) :
      Reparsed s library path (.error (.unreadable path error), { s with generation })
  | exhausted {text : String} {generation : Nat} (hread : library.readText path = .ok text)
      (htime : s.generation + 1 ≤ generation) : Reparsed s library path (.error .exhausted, { s with generation })
  | overtaken {text : String} {generation : Nat} (hread : library.readText path = .ok text)
      (hlate : s.generation + 1 < generation) : Reparsed s library path (.ok none, { s with generation })
  | published {text : String} {a : Assembly} (hread : library.readText path = .ok text) :
      Reparsed s library path (.ok (some a), ⟨s.generation + 1, some a⟩)

theorem reparsed (s : Session) (library : Library) (path : Path) (options : Options) (clock : Int) :
    Reparsed s library path (s.reparse library path options clock) := by
  have htime : s.generation + 1 ≤ (assembleWithin lineBound library path options clock
      (.issued (s.generation + 1)) (s.generation + 1)).generation := le_generation_assembleWithin
  unfold reparse Session.assemble begin
  dsimp only
  unfold Asm6502.assemble
  cases hread : library.readText path with
  | error error =>
    rw [assembleWithin_of_unreadable hread] at htime ⊢
    exact .unreadable hread htime
  | ok text =>
    have hpaces : OutcomePaces (s.generation + 1)
        (assembleWithin lineBound library path options clock (.issued (s.generation + 1)) (s.generation + 1))
        (assembleWithin lineBound library path options clock .never (s.generation + 1)) :=
      paces_assembleWithin (Nat.le_refl _) hread
    generalize assembleWithin lineBound library path options clock (.issued (s.generation + 1)) (s.generation + 1) =
      held at hpaces htime ⊢
    generalize assembleWithin lineBound library path options clock .never (s.generation + 1) = free at hpaces
    cases hpaces with
    | exhausted => exact .exhausted hread htime
    | @whole r hticket hgeneration =>
      have hcurrent : ({ s with generation := r.generation } : Session).isCancelled (.issued (s.generation + 1)) =
          false := by
        rw [hgeneration]
        exact bne_self_eq_false _
      dsimp only
      unfold publish
      rw [hcurrent, hgeneration]
      exact .published hread
    | overtaken hlate hfree => exact .overtaken hread hlate

theorem Reparsed.le_generation {s : Session} {library : Library} {path : Path}
    {after : Except AssembleError (Option Assembly) × Session} (h : Reparsed s library path after) :
    s.generation + 1 ≤ after.2.generation := by
  cases h with
  | unreadable _ htime => exact htime
  | exhausted _ htime => exact htime
  | overtaken _ hlate => exact Nat.le_of_lt hlate
  | published => exact Nat.le_refl _

theorem le_generation_assemble (s : Session) (library : Library) (path : Path) (options : Options) (clock : Int)
    (ticket : Ticket) : s.generation ≤ (s.assemble library path options clock ticket).2.generation :=
  le_generation_assembleWithin

end Session

/-! ### Chronicles -/

/-- What starts a new generation. -/
inductive Move
  | begun
  | cancelled

/-- What has happened in a session: its moves and the assemblies published, each
with the number of its ticket, latest first. -/
structure Chronicle where
  session : Session
  moves : List Move
  published : List (Nat × Assembly)

namespace Chronicle

/-- A session in which nothing has happened. -/
def start : Chronicle := ⟨.empty, [], []⟩

/-- Whether a ticket was handed out when only these moves had been made, with
these made since. -/
structure Issued (c : Chronicle) (k : Nat) (later : List Move) : Prop where
  moves : ∃ earlier, c.moves = later ++ .begun :: earlier ∧ k = earlier.length + 1

/-- What may happen next. A run makes any number of moves while it reads files,
which are of any kind. -/
inductive Steps (c : Chronicle) : Chronicle → Prop
  | begins : Steps c ⟨c.session.begin.2, .begun :: c.moves, c.published⟩
  | cancels : Steps c ⟨c.session.cancel, .cancelled :: c.moves, c.published⟩
  | publishes {k : Nat} {later : List Move} (a : Assembly) (hissued : c.Issued k later) :
      Steps c ⟨(c.session.publish (.issued k) a).2, c.moves,
        if (c.session.publish (.issued k) a).1 then (k, a) :: c.published else c.published⟩
  | assembles {library : Library} {path : Path} {options : Options} {clock : Int} {ticket : Ticket} {meanwhile : List Move}
      (hmeanwhile : (c.session.assemble library path options clock ticket).2.generation =
        c.session.generation + meanwhile.length) :
      Steps c ⟨(c.session.assemble library path options clock ticket).2, meanwhile ++ c.moves, c.published⟩
  | reparses {library : Library} {path : Path} {options : Options} {clock : Int} {meanwhile : List Move}
      (hmeanwhile : (c.session.reparse library path options clock).2.generation =
        c.session.generation + 1 + meanwhile.length) :
      Steps c ⟨(c.session.reparse library path options clock).2, meanwhile ++ .begun :: c.moves,
        match (c.session.reparse library path options clock).1 with
        | .ok (some a) => (c.moves.length + 1, a) :: c.published
        | _ => c.published⟩

/-- What holds of every session. -/
structure IsOrderly (c : Chronicle) : Prop where
  generation : c.session.generation = c.moves.length
  current : c.session.current = c.published.head?.map (·.2)
  le : ∀ x ∈ c.published, x.1 ≤ c.moves.length
  ordered : c.published.Pairwise fun x y => y.1 ≤ x.1

variable {c c' : Chronicle} {k : Nat} {later : List Move}

theorem Issued.add_eq (h : c.Issued k later) : k + later.length = c.moves.length := by
  obtain ⟨earlier, hmoves, rfl⟩ := h.moves
  rw [hmoves, List.length_append, List.length_cons]
  omega

theorem IsOrderly.isCancelled_iff (hc : c.IsOrderly) (h : c.Issued k later) :
    c.session.isCancelled (.issued k) = false ↔ later = [] := by
  have hlength := h.add_eq
  have hcancelled : c.session.isCancelled (.issued k) = (c.moves.length != k) := by
    rw [← hc.generation]
    rfl
  rw [hcancelled, bne_eq_false_iff_eq, ← List.length_eq_zero_iff]
  omega

theorem IsOrderly.publish_eq (hc : c.IsOrderly) (h : c.Issued k later) (a : Assembly) :
    c.session.publish (.issued k) a =
      if later = [] then (true, { c.session with current := some a }) else (false, c.session) := by
  unfold Session.publish
  by_cases hlater : later = []
  · rw [if_pos hlater, (hc.isCancelled_iff h).mpr hlater]
    rfl
  · have hcancelled : c.session.isCancelled (.issued k) = true := by
      rw [← Bool.not_eq_false, hc.isCancelled_iff h]
      exact hlater
    rw [if_neg hlater, if_pos hcancelled]

/-- A new assembly is published for the latest ticket. -/
theorem IsOrderly.published {moves : List Move} {generation : Nat} (hc : c.IsOrderly) (a : Assembly)
    (hgeneration : generation = moves.length) (hmoves : c.moves.length ≤ moves.length) :
    IsOrderly ⟨⟨generation, some a⟩, moves, (moves.length, a) :: c.published⟩ :=
  ⟨hgeneration, rfl, List.forall_mem_cons.mpr ⟨Nat.le_refl _, fun x hx => (hc.le x hx).trans hmoves⟩,
    List.pairwise_cons.mpr ⟨fun x hx => (hc.le x hx).trans hmoves, hc.ordered⟩⟩

/-- New moves leave what is published as it is. -/
theorem IsOrderly.moved {moves : List Move} {generation : Nat} (hc : c.IsOrderly) (hgeneration : generation = moves.length)
    (hmoves : c.moves.length ≤ moves.length) : IsOrderly ⟨{ c.session with generation }, moves, c.published⟩ :=
  ⟨hgeneration, hc.current, fun x hx => (hc.le x hx).trans hmoves, hc.ordered⟩

theorem Steps.isOrderly (h : Steps c c') (hc : c.IsOrderly) : c'.IsOrderly := by
  cases h with
  | begins => exact hc.moved (by rw [hc.generation]; rfl) (Nat.le_succ _)
  | cancels => exact hc.moved (by rw [hc.generation]; rfl) (Nat.le_succ _)
  | @publishes k later a hissued =>
    rw [hc.publish_eq hissued]
    have hlength := hissued.add_eq
    by_cases hlater : later = []
    · subst hlater
      obtain rfl : k = c.moves.length := hlength
      exact hc.published a hc.generation (Nat.le_refl _)
    · rw [if_neg hlater]
      exact hc
  | assembles hmeanwhile =>
    rw [hc.generation, Nat.add_comm, ← List.length_append] at hmeanwhile
    exact hc.moved hmeanwhile (by rw [List.length_append]; exact Nat.le_add_left _ _)
  | @reparses library path options clock meanwhile hmeanwhile =>
    have hreparsed := c.session.reparsed library path options clock
    generalize c.session.reparse library path options clock = after at hreparsed hmeanwhile ⊢
    have hlength : (meanwhile ++ .begun :: c.moves).length = c.session.generation + 1 + meanwhile.length := by
      rw [List.length_append, List.length_cons, hc.generation]
      omega
    have hmoves : c.moves.length ≤ (meanwhile ++ .begun :: c.moves).length := by
      rw [hlength, ← hc.generation]
      omega
    cases hreparsed with
    | unreadable => exact hc.moved (hmeanwhile.trans hlength.symm) hmoves
    | exhausted => exact hc.moved (hmeanwhile.trans hlength.symm) hmoves
    | overtaken => exact hc.moved (hmeanwhile.trans hlength.symm) hmoves
    | published _ =>
      -- nothing has moved meanwhile
      obtain rfl : meanwhile = [] := List.length_eq_zero_iff.mp (by dsimp only at hmeanwhile; omega)
      exact hc.published _ (hmeanwhile.trans hlength.symm) hmoves

theorem isOrderly (h : Relation.ReflTransGen Steps start c) : c.IsOrderly := by
  induction h with
  | refl => exact ⟨rfl, rfl, by rintro _ ⟨⟩, .nil⟩
  | tail _ hstep ih => exact hstep.isOrderly ih

/-- Moves are never taken back. -/
theorem Steps.moves_eq (h : Steps c c') : ∃ meanwhile, c'.moves = meanwhile ++ c.moves := by
  cases h with
  | begins => exact ⟨[.begun], rfl⟩
  | cancels => exact ⟨[.cancelled], rfl⟩
  | publishes => exact ⟨[], rfl⟩
  | @assembles _ _ _ _ _ meanwhile => exact ⟨meanwhile, rfl⟩
  | @reparses _ _ _ _ meanwhile => exact ⟨meanwhile ++ [.begun], by simp⟩

theorem exists_meanwhile (h : Relation.ReflTransGen Steps c c') : ∃ meanwhile, c'.moves = meanwhile ++ c.moves := by
  induction h with
  | refl => exact ⟨[], rfl⟩
  | tail _ hstep ih =>
    obtain ⟨before, hbefore⟩ := ih
    obtain ⟨after, hafter⟩ := hstep.moves_eq
    exact ⟨after ++ before, by rw [hafter, hbefore, List.append_assoc]⟩

/-- Time only goes on while a document is assembled, so some moves account for it. -/
theorem exists_steps_assemble (c : Chronicle) (library : Library) (path : Path) (options : Options) (clock : Int)
    (ticket : Ticket) :
    ∃ c', Steps c c' ∧ c'.session = (c.session.assemble library path options clock ticket).2 ∧
      c'.published = c.published := by
  obtain ⟨n, hn⟩ := Nat.exists_eq_add_of_le (c.session.le_generation_assemble library path options clock ticket)
  have hmeanwhile : (c.session.assemble library path options clock ticket).2.generation =
      c.session.generation + (List.replicate n Move.cancelled).length := by rw [List.length_replicate, hn]
  exact ⟨_, .assembles hmeanwhile, rfl, rfl⟩

theorem exists_steps_reparse {library : Library} {path : Path} {options : Options} {clock : Int}
    {result : Except AssembleError (Option Assembly)} {after : Session}
    (h : c.session.reparse library path options clock = (result, after)) :
    ∃ c', Steps c c' ∧ c'.session = after ∧
      (∀ a, result = .ok (some a) → c'.published = (c.moves.length + 1, a) :: c.published) ∧
      ((∀ a, result ≠ .ok (some a)) → c'.published = c.published) := by
  obtain ⟨n, hn⟩ := Nat.exists_eq_add_of_le (c.session.reparsed library path options clock).le_generation
  have hmeanwhile : (c.session.reparse library path options clock).2.generation =
      c.session.generation + 1 + (List.replicate n Move.cancelled).length := by rw [List.length_replicate, hn]
  have hstep := Steps.reparses hmeanwhile
  rw [h] at hstep
  refine ⟨_, hstep, rfl, fun a ha => ?_, fun hnone => ?_⟩
  · rw [ha]
  · dsimp only
    split
    · exact absurd rfl (hnone _)
    · rfl

/-- In whatever order runs are started, cancelled, assembled and published (every
assembling and every reparse is a step, whatever it comes to): each new ticket has
the next number. A ticket is not overtaken exactly if no move was
made since it was handed out, so this holds of one ticket at most, and a ticket
that is overtaken stays so. An assembly is published for a ticket exactly if it is
not overtaken; the current assembly is the one published last, and none is
published after one of a later ticket. A reparse that is overtaken has no result,
or cannot read its document, and leaves the current assembly in place. -/
theorem session_safety {c : Chronicle} (h : Relation.ReflTransGen Steps start c) :
    c.session.begin.1 = .issued (c.moves.length + 1) ∧
    (∀ k later, c.Issued k later → (c.session.isCancelled (.issued k) = false ↔ later = [])) ∧
    (∀ k k' later later', c.Issued k later → c.Issued k' later' → c.session.isCancelled (.issued k) = false →
      c.session.isCancelled (.issued k') = false → k = k') ∧
    (∀ c' k later, Relation.ReflTransGen Steps c c' → c.Issued k later → c.session.isCancelled (.issued k) = true →
      c'.session.isCancelled (.issued k) = true) ∧
    (∀ k later a, c.Issued k later → c.session.publish (.issued k) a =
      if later = [] then (true, { c.session with current := some a }) else (false, c.session)) ∧
    c.session.current = c.published.head?.map (·.2) ∧ (c.published.Pairwise fun x y => y.1 ≤ x.1) ∧
    (∀ library path options clock ticket, ∃ c', Steps c c' ∧
      c'.session = (c.session.assemble library path options clock ticket).2 ∧ c'.published = c.published) ∧
    (∀ library path options clock result after, c.session.reparse library path options clock = (result, after) →
      ∃ c', Steps c c' ∧ c'.session = after ∧
        (∀ a, result = .ok (some a) → c'.published = (c.moves.length + 1, a) :: c.published) ∧
        ((∀ a, result ≠ .ok (some a)) → c'.published = c.published)) ∧
    ∀ library path options clock result after, c.session.reparse library path options clock = (result, after) →
      result ≠ .error .exhausted →
      (after.generation = c.session.generation + 1 → ∀ text, library.readText path = .ok text →
        ∃ a, result = .ok (some a) ∧ after.current = some a) ∧
      (after.generation ≠ c.session.generation + 1 → ∀ text, library.readText path = .ok text →
        result = .ok none ∧ after.current = c.session.current) ∧
      ∀ error, library.readText path = .error error →
        result = .error (.unreadable path error) ∧ after.current = c.session.current := by
  have hc : c.IsOrderly := isOrderly h
  refine ⟨?_, fun k later => hc.isCancelled_iff, fun k k' later later' hk hk' hcurrent hcurrent' => ?_,
    fun c' k later hc' hk hcancelled => ?_, fun k later a hk => hc.publish_eq hk a, hc.current, hc.ordered,
    c.exists_steps_assemble, fun _ _ _ _ _ _ => exists_steps_reparse, fun library path options clock result after hreparse hends => ?_⟩
  · rw [← hc.generation]
    rfl
  · have hlength := hk.add_eq
    have hlength' := hk'.add_eq
    rw [(hc.isCancelled_iff hk).mp hcurrent] at hlength
    rw [(hc.isCancelled_iff hk').mp hcurrent'] at hlength'
    exact hlength.trans hlength'.symm
  · obtain ⟨meanwhile, hmeanwhile⟩ := exists_meanwhile hc'
    obtain ⟨earlier, hmoves, rfl⟩ := hk.moves
    have hk' : c'.Issued (earlier.length + 1) (meanwhile ++ later) :=
      ⟨earlier, by rw [hmeanwhile, hmoves, List.append_assoc], rfl⟩
    rw [← Bool.not_eq_false, hc.isCancelled_iff hk] at hcancelled
    rw [← Bool.not_eq_false, (isOrderly (h.trans hc')).isCancelled_iff hk', List.append_eq_nil_iff]
    exact fun hnil => hcancelled hnil.2
  · have hreparsed := c.session.reparsed library path options clock
    rw [hreparse] at hreparsed
    cases hreparsed with
    | unreadable hread =>
      refine ⟨fun _ text htext => ?_, fun _ text htext => ?_, fun error herror => ?_⟩
      · rw [hread] at htext
        cases htext
      · rw [hread] at htext
        cases htext
      · rw [hread] at herror
        cases herror
        exact ⟨rfl, rfl⟩
    | exhausted => exact absurd rfl hends
    | overtaken hread hlate =>
      refine ⟨fun hsame => absurd hsame (Nat.ne_of_gt hlate), fun _ _ _ => ⟨rfl, rfl⟩, fun error herror => ?_⟩
      rw [hread] at herror
      cases herror
    | published hread =>
      refine ⟨fun _ _ _ => ⟨_, rfl, rfl⟩, fun hmoved => absurd rfl hmoved, fun error herror => ?_⟩
      rw [hread] at herror
      cases herror

/-- A document of one line. -/
def oneLineSample : Library := .ofFiles [(⟨"main"⟩, "EQUB 1\n".toUTF8)]

/-- A document is reparsed, and then another one, whose run is overtaken. -/
def twoRuns (a : Assembly) : Chronicle := ⟨⟨3, some a⟩, [.cancelled, .begun, .begun], [(1, a)]⟩

theorem exists_reparse_twoRuns :
    ∃ a, Session.empty.reparse oneLineSample ⟨"main"⟩ ⟨[], 0, none⟩ 0 = (.ok (some a), ⟨1, some a⟩) ∧
      Session.reparse ⟨1, some a⟩ overtakenSample ⟨"main"⟩ ⟨[], 0, none⟩ 0 = (.ok none, ⟨3, some a⟩) := by
  have hfirst := Session.empty.reparsed oneLineSample ⟨"main"⟩ ⟨[], 0, none⟩ 0
  have hruns :
      (Session.empty.reparse oneLineSample ⟨"main"⟩ ⟨[], 0, none⟩ 0).1.toOption.join.isSome = true ∧
      ((Session.empty.reparse oneLineSample ⟨"main"⟩ ⟨[], 0, none⟩ 0).2.reparse overtakenSample ⟨"main"⟩
        ⟨[], 0, none⟩ 0).1.toBool = true ∧
      ((Session.empty.reparse oneLineSample ⟨"main"⟩ ⟨[], 0, none⟩ 0).2.reparse overtakenSample ⟨"main"⟩
        ⟨[], 0, none⟩ 0).2.generation = 3 := by decide +kernel
  generalize Session.empty.reparse oneLineSample ⟨"main"⟩ ⟨[], 0, none⟩ 0 = first at hfirst hruns ⊢
  obtain ⟨hsome, hends, htime⟩ := hruns
  cases hfirst with
  | unreadable => cases hsome
  | exhausted => cases hsome
  | overtaken => cases hsome
  | @published _ a =>
    refine ⟨a, rfl, ?_⟩
    have hsecond := Session.reparsed ⟨1, some a⟩ overtakenSample ⟨"main"⟩ ⟨[], 0, none⟩ 0
    change (Session.reparse ⟨1, some a⟩ _ _ _ _).1.toBool = true at hends
    change (Session.reparse ⟨1, some a⟩ _ _ _ _).2.generation = 3 at htime
    generalize Session.reparse ⟨1, some a⟩ overtakenSample ⟨"main"⟩ ⟨[], 0, none⟩ 0 = second at hsecond hends htime ⊢
    cases hsecond with
    | unreadable => cases hends
    | exhausted => cases hends
    | overtaken =>
      cases htime
      rfl
    | published => cases htime

theorem start_steps_twoRuns {a : Assembly}
    (hfirst : Session.empty.reparse oneLineSample ⟨"main"⟩ ⟨[], 0, none⟩ 0 = (.ok (some a), ⟨1, some a⟩))
    (hsecond : Session.reparse ⟨1, some a⟩ overtakenSample ⟨"main"⟩ ⟨[], 0, none⟩ 0 = (.ok none, ⟨3, some a⟩)) :
    Relation.ReflTransGen Steps start (twoRuns a) := by
  have htime : (start.session.reparse oneLineSample ⟨"main"⟩ ⟨[], 0, none⟩ 0).2.generation =
      start.session.generation + 1 + ([] : List Move).length := congrArg (·.2.generation) hfirst
  have hpublished : Steps start ⟨⟨1, some a⟩, [.begun], [(1, a)]⟩ := by
    have hstep := Steps.reparses htime
    rw [show start.session = Session.empty from rfl, hfirst] at hstep
    exact hstep
  have hlate : (Session.reparse ⟨1, some a⟩ overtakenSample ⟨"main"⟩ ⟨[], 0, none⟩ 0).2.generation =
      1 + 1 + [Move.cancelled].length := congrArg (·.2.generation) hsecond
  have hovertaken : Steps ⟨⟨1, some a⟩, [.begun], [(1, a)]⟩ (twoRuns a) := by
    have hstep := Steps.reparses (c := ⟨⟨1, some a⟩, [.begun], [(1, a)]⟩) hlate
    rw [hsecond] at hstep
    exact hstep
  exact .tail (.single hpublished) hovertaken

theorem session_safety_twoRuns :
    ∃ a, Relation.ReflTransGen Steps start (twoRuns a) ∧ (twoRuns a).Issued 2 [.cancelled] ∧
      (twoRuns a).session.isCancelled (.issued 2) ≠ false ∧ (twoRuns a).session.current = some a ∧
      (twoRuns a).session.publish (.issued 2) ⟨.start ⟨[], 0, none⟩ 0 .never 0⟩ = (false, (twoRuns a).session) ∧
      ∃ c, Steps (twoRuns a) c ∧
        c.session = ((twoRuns a).session.reparse oneLineSample ⟨"main"⟩ ⟨[], 0, none⟩ 0).2 := by
  obtain ⟨a, hfirst, hsecond⟩ := exists_reparse_twoRuns
  have hissued : (twoRuns a).Issued 2 [.cancelled] := ⟨[.begun], rfl, rfl⟩
  have hsteps := start_steps_twoRuns hfirst hsecond
  obtain ⟨-, hcurrent, -, -, hpublish, hlast, -, -, hreparse, -⟩ := session_safety hsteps
  obtain ⟨c, hstep, hsession, -⟩ := hreparse oneLineSample ⟨"main"⟩ ⟨[], 0, none⟩ 0 _ _ rfl
  refine ⟨a, hsteps, hissued, fun h => ?_, hlast, hpublish 2 _ _ hissued, c, hstep, hsession⟩
  cases (hcurrent 2 _ hissued).mp h

end Chronicle
end Asm6502
