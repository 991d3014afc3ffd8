/-
# Object code is well-formed in every state

The program counter is in memory or right behind it. A cell is in use exactly if it
has an origin, and a cell that the first pass uses says how the second one is to
treat it. A file that is asked for lies in memory. Every change that a step makes
keeps this, so it holds wherever a pass leads, after statements that fail as well.

Key definitions: `Cell.IsSound`, `ObjectCode.IsSound`, `Run.IsRegular`.
Key theorems: `ObjectCode.IsSound.after`, `Run.Changes.isRegular`, `Run.isDescent_changes`,
`memory_is_regular`.
-/
import Asm6502.Proofs.Memory.Image
import Asm6502.Proofs.Session
import Asm6502.Proofs.Statement.Calls
import Asm6502.Proofs.Walk.Expansion

namespace Asm6502

open LineM

/-! ### Passes -/

section
variable {library : Library} {bound : Nat} {path : Path} {options : Options} {clock : Int} {ticket : Ticket}
  {generation : Nat}

/-- The text and the run that a pass over a document begins with. -/
inductive PassBegins (bound : Nat) (library : Library) (path : Path) (options : Options) (clock : Int)
    (ticket : Ticket) (generation : Nat) : Pass → String → Run → Prop
  | first {text : String} (hread : library.readText path = .ok text) :
      PassBegins bound library path options clock ticket generation .first text
        ((Run.opened library path options clock ticket generation).beginPass .first)
  | second {text : String} {r : Run} (hread : library.readText path = .ok text)
      (hfirst : runPass library bound 0 text .first (.opened library path options clock ticket generation) = some r)
      (hgoesOn : r.isCancelled = false) :
      PassBegins bound library path options clock ticket generation .second text (r.beginPass .second)

/-- An assembly is what its second pass comes to. -/
theorem exists_second_pass {a : Assembly}
    (hresult : (assembleWithin bound library path options clock ticket generation).result = .ok a) :
    ∃ text r result, PassBegins bound library path options clock ticket generation .second text r ∧
      walk library bound fullAllowance (mainWalk 0 text) r = some result ∧ result.2 = a.run := by
  cases hread : library.readText path with
  | error error =>
    rw [assembleWithin_of_unreadable hread] at hresult
    cases hresult
  | ok text =>
    rw [assembleWithin_of_readable hread] at hresult
    unfold runPasses at hresult
    split at hresult
    · cases hresult
    · rename_i r₁ hfirst
      split_ifs at hresult with hcancelled
      split at hresult
      · cases hresult
      · rename_i r₂ hsecond
        split_ifs at hresult
        cases hresult
        obtain ⟨result, hwalk, hrun⟩ := Option.map_eq_some_iff.mp hsecond
        exact ⟨text, _, result, .second hread hfirst (by simpa using hcancelled), hwalk, hrun⟩

end

/-! ### Cells -/

/-- Whether a cell is in use exactly if it has an origin and, if the first pass uses
it, says how the second one is to treat it. -/
structure Cell.IsSound (firstPass : Bool) (c : Cell) : Prop where
  used : c.used = c.origin.isSome
  checked : firstPass = true → c.used = true → c.check = true ∨ c.exempt = true

namespace Cell

variable {firstPass : Bool} {c : Cell}

theorem isSound_cleared : cleared.IsSound firstPass := ⟨rfl, fun _ h => by cases h⟩

theorem isSound_renewed : c.renewed.IsSound firstPass := ⟨rfl, fun _ h => by cases h⟩

theorem isSound_written (byte : UInt8) (known : Bool) (origin : Origin) :
    (c.written firstPass byte known origin).IsSound firstPass := by
  refine ⟨rfl, fun hfirst _ => ?_⟩
  subst hfirst
  cases known with
  | true => exact Or.inl (Bool.or_true _)
  | false => exact Or.inr (Bool.or_true _)

theorem IsSound.guarded (h : c.IsSound firstPass) (guarded : Bool) : { c with guarded }.IsSound firstPass :=
  ⟨h.used, h.checked⟩

end Cell

/-! ### Object code -/

/-- Whether the program counter is in memory or right behind it, and every cell is
sound. -/
structure ObjectCode.IsSound (code : ObjectCode) : Prop where
  pc : code.pc ≤ memorySize
  cell : ∀ a < memorySize, (code.cell a).IsSound code.firstPass

namespace ObjectCode

variable {code : ObjectCode}

theorem isSound_beginPass (code : ObjectCode) (firstPass : Bool) (cpu : UInt8) :
    (code.beginPass firstPass cpu).IsSound where
  pc := Nat.zero_le _
  cell a _ := by
    rw [cell_beginPass]
    exact Cell.isSound_renewed

theorem firstPass_after (code : ObjectCode) (action : Action) : (code.after action).firstPass = code.firstPass := by
  cases action with
  | operation op => exact code.step_firstPass op
  | copy start stop target =>
    rw [after, copy]
    split_ifs <;> rfl
  | set => rfl

theorem pc_write_le (h : code.pc ≤ memorySize) (bytes : List (UInt8 × Bool)) (origin : Origin) :
    (code.write bytes origin).2.pc ≤ memorySize := by
  cases hrefusal : code.refusal bytes.length with
  | some fault =>
    rw [write_refused hrefusal]
    exact h
  | none =>
    obtain ⟨hfit, -⟩ := refusal_eq_none_iff.mp hrefusal
    rw [write_carried hrefusal]
    split_ifs
    · exact (putAll_pc origin bytes code).trans_le hfit
    · exact (putAll_pc origin bytes code).trans_le hfit

theorem pc_after_le (h : code.pc ≤ memorySize) {action : Action} (hbounded : action.IsBounded) :
    (code.after action).pc ≤ memorySize := by
  cases action with
  | operation op =>
    cases op with
    | setPc pc => exact hbounded
    | advance amount =>
      rw [after, step, advance]
      split_ifs with hroom
      · exact h
      · exact Nat.le_of_not_lt hroom
    | write bytes origin => exact pc_write_le h bytes origin
    | setGuard address =>
      rw [after, step, setGuard]
      split_ifs <;> exact h
    | clear start stop => exact h
  | copy start stop target =>
    rw [after, copy]
    split_ifs <;> exact h
  | set => exact h

theorem isSound_cell_after (h : code.IsSound) (action : Action) {a : Nat} (ha : a < memorySize) :
    ((code.after action).cell a).IsSound code.firstPass := by
  cases action with
  | operation op =>
    rcases code.step_cell op ha with ⟨-, -, hcell⟩ | ⟨-, -, byte, known, origin, -, -, hcell⟩ | ⟨-, -, guarded, hcell⟩
    · rw [after, hcell]
      exact Cell.isSound_cleared
    · rw [after, hcell]
      exact Cell.isSound_written byte known origin
    · rw [after, hcell]
      exact (h.cell a ha).guarded guarded
  | copy start stop target =>
    obtain ⟨b, -, hb, hcell⟩ := code.cell_copy start stop target ha
    rw [hcell]
    exact h.cell b hb
  | set => exact h.cell a ha

/-- Every change keeps object code sound. -/
theorem IsSound.after (h : code.IsSound) {action : Action} (hbounded : action.IsBounded) :
    (code.after action).IsSound := by
  refine ⟨pc_after_le h.pc hbounded, fun a ha => ?_⟩
  rw [firstPass_after]
  exact isSound_cell_after h action ha

end ObjectCode

/-! ### Runs -/

/-- Whether the object code of a run is well-formed, and the files that are asked
for lie in memory. -/
structure Run.IsRegular (r : Run) : Prop where
  pc : r.code.pc ≤ memorySize
  used_iff : ∀ address < memorySize, (r.code.cell address).used = true ↔ (r.code.origin? address).isSome = true
  checked : r.pass = .first → ∀ address < memorySize, (r.code.cell address).used = true →
    (r.code.cell address).check = true ∨ (r.code.cell address).exempt = true
  saves : ∀ save ∈ r.saves, save.start ≤ save.stop ∧ save.stop ≤ memorySize ∧
    (r.code.bytes save.start save.stop).length = save.stop - save.start

namespace Run

variable {r r' : Run}

theorem Changes.isSound_code (h : r.Changes r') (hr : r.code.IsSound) : r'.code.IsSound := by
  induction h with
  | refl => exact hr
  | tail _ hchange ih =>
    cases hchange with
    | aside hcode => exact hcode ▸ ih
    | coded action hbounded => exact ih.after hbounded
    | saved => exact ih

theorem Changes.pass_eq (h : r.Changes r') : r'.pass = r.pass := by
  induction h with
  | refl => rfl
  | tail _ hchange ih =>
    cases hchange with
    | aside _ _ hpass => exact hpass.trans ih
    | coded => exact ih
    | saved => exact ih

theorem Changes.firstPass_eq (h : r.Changes r') : r'.code.firstPass = r.code.firstPass := by
  induction h with
  | refl => rfl
  | tail _ hchange ih =>
    cases hchange with
    | aside hcode => exact (congrArg ObjectCode.firstPass hcode).trans ih
    | coded action => exact (ObjectCode.firstPass_after _ action).trans ih
    | saved => exact ih

/-- Wherever a pass leads, the run is regular. -/
theorem Changes.isRegular {pass : Pass} (h : (r.beginPass pass).Changes r') : r'.IsRegular := by
  have hcode : r'.code.IsSound := h.isSound_code (ObjectCode.isSound_beginPass _ _ _)
  refine ⟨hcode.pc, fun address haddress => ?_, fun hfirst address haddress => ?_, fun save hsave => ?_⟩
  · rw [(hcode.cell address haddress).used, ObjectCode.origin?, if_pos haddress]
  · refine (hcode.cell address haddress).checked ?_
    have hpass : pass = .first := h.pass_eq.symm.trans hfirst
    exact h.firstPass_eq.trans (decide_eq_true hpass)
  · obtain ⟨hle, hstop⟩ := h.saves (fun _ hnone => by simp [beginPass] at hnone) save hsave
    refine ⟨hle, hstop, ?_⟩
    rw [ObjectCode.bytes, Nat.min_eq_left hstop, Nat.min_eq_left (hle.trans hstop), List.length_map, Block.slice,
      List.length_map, List.length_range']

end Run

/-! ### Every state -/

theorem Run.isDescent_changes : Run.IsDescent Run.Changes where
  toIsPassage := Run.isPassage_changes
  inText _ := .single (.aside rfl rfl rfl rfl)
  inFile r path := by
    rw [Run.inFile, Run.addFile_eq]
    exact .single (.aside rfl rfl rfl rfl)

/-- **Object code is well-formed in every state.** In every state of a pass, and after
the statement that is executed next in it, whether that succeeds or fails, the program
counter is in memory or right behind it, a cell is in use exactly if it has an origin,
every cell that the first pass uses says how the second one is to treat it, and every
file that is asked for lies in memory. So it is in the run that a walk comes to, and in
an assembly. -/
theorem memory_is_regular (bound : Nat) (library : Library) (path : Path) (options : Options) (clock : Int)
    (ticket : Ticket) (generation : Nat) :
    (∀ pass text r, PassBegins bound library path options clock ticket generation pass text r →
      (∀ b p, Visits library fullAllowance (mainWalk 0 text) r b p → p.run.IsRegular) ∧
      (∀ b t, Meets library fullAllowance (mainWalk 0 text) r b t → t.run.IsRegular ∧
        ∀ index n, (stateOf (statement (.bounded library b.includes index b.evals n) t.atStatement)).run.IsRegular) ∧
      ∀ n result, walk library n fullAllowance (mainWalk 0 text) r = some result → result.2.IsRegular) ∧
    ∀ a, (assembleWithin bound library path options clock ticket generation).result = .ok a → a.run.IsRegular := by
  have hregular {pass : Pass} {text : String} {r r' : Run}
      (hbegins : PassBegins bound library path options clock ticket generation pass text r) (h : r.Changes r') :
      r'.IsRegular := by
    cases hbegins with
    | first => exact h.isRegular
    | second => exact h.isRegular
  refine ⟨fun pass text r hbegins => ⟨?_, ?_, ?_⟩, fun a hresult => ?_⟩
  · intro b p hvisits
    exact hregular hbegins (hvisits.relates Run.isDescent_changes)
  · intro b t hmeets
    have hchanges := hmeets.relates Run.isDescent_changes
    refine ⟨hregular hbegins hchanges, fun index n => ?_⟩
    have hstatement : t.run.Changes
        (stateOf (statement (.bounded library b.includes index b.evals n) t.atStatement)).run :=
      wp_stateOf (P := fun u => t.run.Changes u.run) (Run.isPassage_changes.statement
        (Run.isPassage_changes.lineSetting Run.isPassage_changes.runBufferWithin b.evals) t.atStatement)
    exact hregular hbegins (hchanges.trans hstatement)
  · intro n result hwalk
    exact hregular hbegins (Run.isPassage_changes.walk n _ _ _ _ _ hwalk)
  · obtain ⟨text, r, result, hbegins, hwalk, hrun⟩ := exists_second_pass hresult
    rw [← hrun]
    exact hregular hbegins (Run.isPassage_changes.walk bound _ _ _ _ _ hwalk)

/-- Memory is filled up to its end, and one statement more does not fit. -/
def fullSampleText : String := "ORG &FFFF: EQUB 1: EQUB 2\nSAVE \"f\", &FFFF, &10000"

def fullSample : Library := .ofFiles [(⟨"main"⟩, fullSampleText.toUTF8)]

namespace FullSample

def begun : Run := (Run.opened fullSample ⟨"main"⟩ ⟨[], 0, none⟩ 0 .never 0).beginPass .first

/-- The first line. -/
def line : LineState := (mainWalk 0 fullSampleText).entering begun "ORG &FFFF: EQUB 1: EQUB 2"

abbrev setting : Setting := .bounded fullSample fullAllowance.includes 0 fullAllowance.evals 8

/-- The first line after some of its statements. -/
def after : Nat → LineState
  | 0 => line
  | n + 1 => stateOf (statement setting (after n).atStatement)

theorem fills :
    (∀ n < 4, succeeds true (statement setting (after n).atStatement) = true ∧ (after n).cursor.skipBlanks.rest ≠ []) ∧
    begun.isCancelled = false ∧ (mainWalk 0 fullSampleText).buffer.lines[0]? = some "ORG &FFFF: EQUB 1: EQUB 2" ∧
    (after 4).run.code.pc = memorySize ∧ ((after 4).run.code.cell 0xFFFF).used = true ∧
    succeeds true (statement setting (after 4).atStatement) = false ∧
    fullSample.readText ⟨"main"⟩ = .ok fullSampleText ∧
    (assembleWithin 9 fullSample ⟨"main"⟩ ⟨[], 0, none⟩ 0 .never 0).result.toOption.map
      (fun a => a.run.saves.map fun save => (save.start, save.stop)) = some #[(0xFFFF, 0x10000)] := by decide +kernel

theorem after_succ (n : Nat) : after (n + 1) = stateOf (statement setting (after n).atStatement) := rfl

theorem after_zero : after 0 = (mainWalk 0 fullSampleText).entering begun "ORG &FFFF: EQUB 1: EQUB 2" := rfl

attribute [irreducible] begun line after

theorem getsTo_after : ∀ n ≤ 4, (after 0).GetsTo fullSample (runBufferWithin fullSample 8) fullAllowance.includes 0
    fullAllowance.evals fullAllowance.evals (after n)
  | 0, _ => .refl
  | n + 1, hn => by
    obtain ⟨hsucceeds, hrest⟩ := fills.1 n hn
    have hrun : statement setting (after n).atStatement = .ok true (after (n + 1)) := by
      rw [after_succ]
      exact eq_ok_stateOf hsucceeds
    exact (getsTo_after n (Nat.le_of_lt hn)).executes hrest hrun

/-- The last statement of the first line is got to. -/
theorem meets_after : Meets fullSample fullAllowance (mainWalk 0 fullSampleText) begun fullAllowance (after 4) := by
  obtain ⟨-, hgoesOn, hline, -⟩ := fills
  have hvisits : Visits fullSample fullAllowance (mainWalk 0 fullSampleText) begun fullAllowance _ :=
    (Visits.start 9).advances (.enters hline hgoesOn)
  rw [← after_zero] at hvisits
  exact ⟨_, _, _, _, _, _, hvisits, getsTo_after 4 le_rfl⟩

end FullSample

open FullSample in
theorem memory_is_regular_full :
    ∃ a, (assembleWithin 9 fullSample ⟨"main"⟩ ⟨[], 0, none⟩ 0 .never 0).result = .ok a ∧
      Meets fullSample fullAllowance (mainWalk 0 fullSampleText) begun fullAllowance (after 4) ∧
      (after 4).run.code.pc = memorySize ∧ (after 4).run.IsRegular ∧
      succeeds true (statement setting (after 4).atStatement) = false ∧
      (stateOf (statement setting (after 4).atStatement)).run.IsRegular ∧
      a.run.saves.map (fun save => (save.start, save.stop)) = #[(0xFFFF, 0x10000)] ∧ a.run.IsRegular := by
  obtain ⟨-, -, -, hpc, -, hfails, hread, hsaves⟩ := fills
  have hbegins : PassBegins 9 fullSample ⟨"main"⟩ ⟨[], 0, none⟩ 0 .never 0 .first fullSampleText begun := by
    unfold begun
    exact .first hread
  obtain ⟨hpasses, hassembly⟩ := memory_is_regular 9 fullSample ⟨"main"⟩ ⟨[], 0, none⟩ 0 .never 0
  obtain ⟨-, hmeets, -⟩ := hpasses _ _ _ hbegins
  obtain ⟨hregular, hnext⟩ := hmeets _ _ meets_after
  cases hresult : (assembleWithin 9 fullSample ⟨"main"⟩ ⟨[], 0, none⟩ 0 .never 0).result with
  | error e =>
    rw [hresult] at hsaves
    cases hsaves
  | ok a =>
    rw [hresult] at hsaves
    exact ⟨a, rfl, meets_after, hpc, hregular, hfails, hnext 0 8, Option.some.inj hsaves, hassembly a hresult⟩

end Asm6502
