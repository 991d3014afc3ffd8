/-
# What is in memory at the end

The second pass begins with every cell unused but with the bytes of the first, to
compare them. A cell that it neither writes nor clears keeps such a byte: if the first
pass alone has written there, the byte is in the final memory and in the files
that are saved from it, and nothing is reported.

So what is in memory is a byte of the second pass, or one that is left over from
the first, or zero. Memory holds nothing of the first pass exactly if every byte
that is left over is zero.

Key theorems: `Run.Changes.saves`, `exists_passes`, `memory_left_over`.
-/
import Asm6502.Assembly.Query
import Asm6502.Proofs.Walk.Changes

namespace Asm6502

variable {library : Library}

/-! ### Passes -/

theorem Run.Changes.options_eq {r r' : Run} (h : r.Changes r') : r'.options = r.options := by
  induction h with
  | refl => rfl
  | tail _ hchange ih =>
    cases hchange with
    | aside _ _ _ hoptions => exact hoptions.trans ih
    | coded action _ => exact ih
    | saved save _ _ => exact ih

/-- A file that is asked for lies in memory. -/
theorem Run.Changes.saves {r r' : Run} (h : r.Changes r')
    (hr : ∀ save ∈ r.saves, save.start ≤ save.stop ∧ save.stop ≤ memorySize) :
    ∀ save ∈ r'.saves, save.start ≤ save.stop ∧ save.stop ≤ memorySize := by
  induction h with
  | refl => exact hr
  | tail _ hchange ih =>
    cases hchange with
    | aside _ hsaves _ _ =>
      rw [hsaves]
      exact ih
    | coded action _ => exact ih
    | saved new hle hstop =>
      intro save hsave
      rcases Array.mem_push.mp hsave with hold | rfl
      · exact ih save hold
      · exact ⟨hle, hstop⟩

theorem Run.code_addFile (r : Run) (path : Path) : (r.addFile path).2.code = r.code := by
  dsimp only [Run.addFile]
  split <;> rfl

theorem Run.options_addFile (r : Run) (path : Path) : (r.addFile path).2.options = r.options := by
  dsimp only [Run.addFile]
  split <;> rfl

/-- An assembly is the second of two passes over the text of the main file, which
begin with empty memory. -/
theorem exists_passes {bound : Nat} {path : Path} {options : Options} {clock : Int} {ticket : Ticket}
    {generation : Nat} {a : Assembly}
    (h : (assembleWithin bound library path options clock ticket generation).result = .ok a) :
    ∃ (file : Nat) (text : String) (start first : Run), library.readText path = .ok text ∧
      start.code = .empty ∧ start.options = options ∧
      runPass library bound file text .first start = some first ∧
      runPass library bound file text .second first = some a.run := by
  unfold assembleWithin at h
  dsimp only at h
  split at h
  · cases h
  · rename_i text htext
    unfold runPasses at h
    split at h
    · cases h
    · rename_i first hfirst
      split_ifs at h
      split at h
      · cases h
      · rename_i second hsecond
        split_ifs at h
        cases h
        refine ⟨_, text, _, first, htext, ?_, ?_, hfirst, hsecond⟩
        · exact (Run.code_addFile _ path).trans rfl
        · exact (Run.options_addFile _ path).trans rfl

theorem getElem?_bytes (code : ObjectCode) {start stop i : Nat} (hstop : stop ≤ memorySize) (hi : i < stop - start) :
    (code.bytes start stop)[i]? = some (code.cell (start + i)).byte := by
  rw [ObjectCode.bytes, Nat.min_eq_left hstop, Nat.min_eq_left (by omega), List.getElem?_map,
    Block.getElem?_slice _ _ _ hi]
  rfl

/-- What is in memory after the second pass. It begins with the memory of the
first, whose bytes are written or zero, and changes it step by step. Whatever the
steps are, a cell that is unused at the end has the byte that is left over there,
or zero if none is; so memory, and with it every file, holds nothing of the first
pass exactly if no byte is left over that the first pass has written, unless it is
zero. -/
theorem memory_left_over {bound : Nat} {path : Path} {options : Options} {clock : Int} {ticket : Ticket}
    {generation : Nat} {a : Assembly}
    (h : (assembleWithin bound library path options clock ticket generation).result = .ok a) :
    ∃ (file : Nat) (text : String) (start first : Run),
      library.readText path = .ok text ∧
      runPass library bound file text .first start = some first ∧
      runPass library bound file text .second first = some a.run ∧
      first.code.IsClean ∧
      (∃ actions, a.run.code = (first.code.beginPass false options.cpu).afterAll actions) ∧
      (∀ actions, a.run.code = (first.code.beginPass false options.cpu).afterAll actions →
        (∀ address < memorySize, (a.run.code.cell address).used = false →
          (a.run.code.cell address).byte =
            (((first.code.beginPass false options.cpu).leftover actions address).map fun b =>
              (first.code.cell b).byte).getD 0) ∧
        (a.run.code.IsClean ↔
          ∀ address < memorySize, ∀ b, (first.code.beginPass false options.cpu).leftover actions address = some b →
            (first.code.cell b).used = true → (first.code.cell b).byte = 0)) ∧
      ∀ save ∈ a.run.saves, save.start ≤ save.stop ∧ save.stop ≤ memorySize ∧
        ∀ i < save.stop - save.start, (a.savedBytes save)[i]? = some (a.run.code.cell (save.start + i)).byte := by
  obtain ⟨file, text, start, first, htext, hempty, hoptions, hfirst, hsecond⟩ := exists_passes h
  have hchanges : (start.beginPass .first).Changes first := Run.isPassage_changes.runPass hfirst
  have hchanges' : (first.beginPass .second).Changes a.run := Run.isPassage_changes.runPass hsecond
  have hclean : first.code.IsClean := by
    obtain ⟨actions, hactions⟩ := hchanges.exists_afterAll
    rw [hactions]
    refine ObjectCode.IsClean.afterAll ?_ actions
    dsimp only [Run.beginPass]
    rw [hempty]
    exact ObjectCode.isClean_empty _ _
  have hbegin : (first.beginPass .second).code = first.code.beginPass false options.cpu := by
    rw [← hoptions, ← show first.options = start.options from hchanges.options_eq]
    rfl
  refine ⟨file, text, start, first, htext, hfirst, hsecond, hclean, ?_, ?_, ?_⟩
  · rw [← hbegin]
    exact hchanges'.exists_afterAll
  · intro actions hactions
    constructor
    · intro address haddress hused
      rw [hactions] at hused ⊢
      exact ObjectCode.byte_of_unused haddress hused
    · rw [hactions, ObjectCode.isClean_afterAll_iff]
      constructor
      · intro hzero address haddress b hb _
        exact hzero address haddress b hb
      · -- an unused cell of the first pass is zero anyway
        intro hzero address haddress b hb
        by_cases hused : (first.code.cell b).used = true
        · exact hzero address haddress b hb hused
        · exact hclean b (ObjectCode.lt_of_leftover haddress hb) (by simpa using hused)
  · intro save hsave
    obtain ⟨hle, hstop⟩ := hchanges'.saves (fun _ hnone => by simp [Run.beginPass] at hnone) save hsave
    exact ⟨hle, hstop, fun i hi => getElem?_bytes _ hstop hi⟩

/-- A text of which only the first pass writes a byte, which the second copies. -/
def copiedSample : Library :=
  .ofFiles [(⟨"main"⟩, "IF fwd=P%\nORG &3000\nEQUB 7\nENDIF\nfwd=1\nCOPYBLOCK &3000,&3001,&4000\n".toUTF8)]

theorem memory_left_over_copied :
    ∃ (a : Assembly) (first : Run) (actions : List ObjectCode.Action) (b : Nat),
      (assembleWithin 8 copiedSample ⟨"main"⟩ ⟨[], 0, none⟩ 0 .never 0).result = .ok a ∧
      a.run.code = (first.code.beginPass false 0).afterAll actions ∧
      (a.run.code.cell 0x4000).used = false ∧
      (first.code.beginPass false 0).leftover actions 0x4000 = some b ∧ (first.code.cell b).byte = 7 := by
  have hcell : (assembleWithin 8 copiedSample ⟨"main"⟩ ⟨[], 0, none⟩ 0 .never 0).result.toOption.map
      (fun a => ((a.run.code.cell 0x4000).used, (a.run.code.cell 0x4000).byte)) = some (false, 7) := by decide +kernel
  cases hresult : (assembleWithin 8 copiedSample ⟨"main"⟩ ⟨[], 0, none⟩ 0 .never 0).result with
  | error e =>
    rw [hresult] at hcell
    cases hcell
  | ok a =>
    rw [hresult] at hcell
    obtain ⟨hused, hbyte⟩ := Prod.mk.inj (Option.some.inj hcell)
    obtain ⟨-, -, -, first, -, -, -, -, ⟨actions, hactions⟩, hmemory, -⟩ := memory_left_over hresult
    have hleft := (hmemory actions hactions).1 0x4000 (by decide) hused
    rw [hbyte] at hleft
    cases hb : (first.code.beginPass false 0).leftover actions 0x4000 with
    | none =>
      rw [hb] at hleft
      cases hleft
    | some b =>
      rw [hb] at hleft
      exact ⟨a, first, actions, b, rfl, hactions, hused, hb, hleft.symm⟩

/-- A text of which only the first pass writes a byte, and a file with it. -/
def leftoverSample : Library :=
  .ofFiles [(⟨"main"⟩, "IF fwd=P%\nORG &3000\nEQUB 1\nENDIF\nfwd=1\nSAVE \"out\",&3000,&3001\n".toUTF8)]

/-- A byte of the first pass may stay in memory, and be saved, with nothing
reported. -/
theorem memory_holds_first_pass :
    (assembleWithin 8 leftoverSample ⟨"main"⟩ ⟨[], 0, none⟩ 0 .never 0).result.toOption.map
      (fun a => (a.diagnostics, (a.run.code.cell 0x3000).used, (a.run.code.cell 0x3000).byte,
        a.run.saves.toList.map a.savedBytes)) = some ([], false, 1, [[1]]) := by decide +kernel

end Asm6502
