/-
# What lines and walks do to memory

Whatever a statement does, it changes the object code by changes that are known one by
one, and asks only for files that lie in memory. All else that it does to the run leaves
object code and saves alone. So do lines, walks and passes, and the statements of a text,
of an included file and of a macro count.

Key definitions: `Run.Change`, `Run.Changes`.
Key theorems: `Run.isPassage_changes`, `Run.Changes.exists_afterAll`.
-/
import Asm6502.Proofs.Walk.Stage

namespace Asm6502

/-- Whether a change leaves the program counter in memory or right behind it, if
it sets it. -/
def ObjectCode.Action.IsBounded : ObjectCode.Action → Prop
  | .operation (.setPc pc) => pc ≤ memorySize
  | _ => True

namespace Run

/-- What one step does to the object code and the saves of a run. -/
inductive Change : Run → Run → Prop
  | aside {r r' : Run} : r'.code = r.code → r'.saves = r.saves → r'.pass = r.pass → r'.options = r.options →
      Change r r'
  | coded (r : Run) (action : ObjectCode.Action) : action.IsBounded →
      Change r { r with code := r.code.after action }
  | saved (r : Run) (save : Save) : save.start ≤ save.stop → save.stop ≤ memorySize →
      Change r { r with saves := r.saves.push save }

/-- What steps do to the object code and the saves of a run. -/
abbrev Changes : Run → Run → Prop := Relation.ReflTransGen Change

theorem Changes.exists_afterAll {r r' : Run} (h : r.Changes r') :
    ∃ actions, r'.code = r.code.afterAll actions := by
  induction h with
  | refl => exact ⟨[], rfl⟩
  | tail _ hchange ih =>
    obtain ⟨actions, hactions⟩ := ih
    cases hchange with
    | aside hcode _ _ _ => exact ⟨actions, hcode.trans hactions⟩
    | coded action _ =>
      refine ⟨actions ++ [action], ?_⟩
      rw [ObjectCode.afterAll_append, ← hactions]
      rfl
    | saved save _ _ => exact ⟨actions, hactions⟩

theorem changes_addFile (r : Run) (path : Path) : r.Changes (r.addFile path).2 := by
  rw [Run.addFile_eq]
  exact .single (.aside rfl rfl rfl rfl)

theorem isPassage_changes : IsPassage Changes where
  refl _ := .refl
  trans := .trans
  report _ _ _ := .single (.aside rfl rfl rfl rfl)
  recordTree _ _ _ _ := .single (.aside rfl rfl rfl rfl)
  deed henv h := by
    cases h with
    | @coded w r action hadmits =>
      refine .single (.coded r action ?_)
      cases action with
      | operation o => cases o <;> first | exact hadmits | trivial
      | copy | set => trivial
    | saved hstart hstop => exact .single (.saved _ _ hstart hstop)
    | opened _ hopen =>
      obtain ⟨-, rfl⟩ := Walk.eq_of_openScope hopen
      exact .single (.aside rfl rfl rfl rfl)
    | looped _ _ _ _ _ hstart =>
      obtain ⟨-, rfl⟩ := Walk.eq_of_startLoop hstart
      exact .single (.aside rfl rfl rfl rfl)
    | stepped _ hstep =>
      obtain ⟨f, own, l, -, -, ⟨-, rfl⟩ | ⟨l', -, -, rfl⟩⟩ := Walk.eq_of_stepLoop hstep <;>
        exact .single (.aside rfl rfl rfl rfl)
    | ran _ hx hrun =>
      cases hx with
      | intro => exact henv.answer _ _ hrun
    | added path => exact changes_addFile _ path
    | @included w r r' x _ hx hrun =>
      cases hx with
      | @intro path =>
        have hinside : r.Changes (r.inFile path) := (changes_addFile r path).tail (.aside rfl rfl rfl rfl)
        exact (hinside.trans (henv.answer _ _ hrun)).tail (.aside rfl rfl rfl rfl)
    | @inlined s _ _ text =>
      have hinside : s.run.Changes s.inText.run := .single (.aside rfl rfl rfl rfl)
      exact (hinside.trans (henv.text text s.inText)).tail (.aside rfl rfl rfl rfl)
    | _ => exact .single (.aside rfl rfl rfl rfl)

end Run
end Asm6502
