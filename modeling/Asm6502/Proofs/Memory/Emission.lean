/-
# The origins of bytes

A statement stores bytes with its own place as their origin, and with the number of
the macro call that it is expanded from. A byte that it leaves alone keeps its origin,
and one that it copies takes its origin along. So the origins in memory and the calls
refer only to calls that were noted before, and the calls around a byte can be followed
outwards.

Key definitions: `ObjectCode.Emits`, `ObjectCode.IsLinked`, `IsCallStack`.
Key theorems: `ObjectCode.Emits.trans`, `ObjectCode.emits_after`,
`ObjectCode.Emits.isLinked`, `IsCallStack.mono`.
-/
import Asm6502.Proofs.Source
import Asm6502.Proofs.Statement.Deed

namespace Asm6502
namespace ObjectCode

/-! ### What is stored -/

/-- What a statement with the origin `p` may do to object code. It notes calls, and it
stores bytes in cells that are free. Where it moves bytes about, their origins stay
among those that there are. -/
structure Emits (bulk : Prop) (p : Origin) (c c' : ObjectCode) : Prop where
  sites : ∃ noted : Array Origin, c'.callSites = c.callSites ++ noted ∧ ∀ o ∈ noted, o.Alongside p
  cell : ∀ a < memorySize,
    ((c'.cell a).origin = (c.cell a).origin ∧ (c'.cell a).used = (c.cell a).used) ∨
    ((c.cell a).used = false ∧ (c'.cell a).used = true ∧ ∃ o, (c'.cell a).origin = some o ∧ o.Alongside p) ∨
    (bulk ∧ ∀ o, (c'.cell a).origin = some o → o.Alongside p ∨ ∃ b < memorySize, (c.cell b).origin = some o)

section
variable {bulk : Prop} {p : Origin} {c c' c'' : ObjectCode}

theorem Emits.refl (c : ObjectCode) : Emits bulk p c c :=
  ⟨⟨#[], Array.append_empty.symm, fun o ho => by simp at ho⟩, fun _ _ => .inl ⟨rfl, rfl⟩⟩

theorem Emits.mono (h : Emits bulk p c c') {bulk' : Prop} (hbulk : bulk → bulk') : Emits bulk' p c c' :=
  ⟨h.sites, fun a ha => (h.cell a ha).imp_right (Or.imp_right (And.imp_left hbulk))⟩

/-- An origin that is there after a statement is the statement's or was there before. -/
theorem Emits.origin (h : Emits bulk p c c') {a : Nat} (ha : a < memorySize) {o : Origin}
    (ho : (c'.cell a).origin = some o) : o.Alongside p ∨ ∃ b < memorySize, (c.cell b).origin = some o := by
  rcases h.cell a ha with ⟨hkept, -⟩ | ⟨-, -, o', hstored, hat⟩ | ⟨-, hmoved⟩
  · exact .inr ⟨a, ha, hkept ▸ ho⟩
  · cases hstored.symm.trans ho
    exact .inl hat
  · exact hmoved o ho

theorem Emits.trans (h : Emits bulk p c c') (h' : Emits bulk p c' c'') : Emits bulk p c c'' := by
  obtain ⟨noted, hnoted, hat⟩ := h.sites
  obtain ⟨noted', hnoted', hat'⟩ := h'.sites
  refine ⟨⟨noted ++ noted', by rw [hnoted', hnoted, Array.append_assoc], fun o ho => ?_⟩, fun a ha => ?_⟩
  · exact (Array.mem_append.mp ho).elim (hat o) (hat' o)
  have hmoved (hbulk : bulk) : bulk ∧ ∀ o, (c''.cell a).origin = some o →
      o.Alongside p ∨ ∃ b < memorySize, (c.cell b).origin = some o := by
    refine ⟨hbulk, fun o ho => ?_⟩
    rcases h'.origin ha ho with hat | ⟨b, hb, hbefore⟩
    · exact .inl hat
    · exact h.origin hb hbefore
  rcases h'.cell a ha with ⟨hkept', hused'⟩ | ⟨hfree', hstored'⟩ | ⟨hbulk, -⟩
  · rw [hkept', hused']
    exact h.cell a ha
  · -- a cell that is free in between was free before, unless it was cleared
    rcases h.cell a ha with ⟨-, hused⟩ | ⟨-, hused, -⟩ | ⟨hbulk, -⟩
    · exact .inr (.inl ⟨hused ▸ hfree', hstored'⟩)
    · rw [hused] at hfree'
      cases hfree'
    · exact .inr (.inr (hmoved hbulk))
  · exact .inr (.inr (hmoved hbulk))

/-! ### Changes of object code -/

theorem callSites_putAll (origin : Origin) (bytes : List (UInt8 × Bool)) (code : ObjectCode) :
    (code.putAll origin bytes).callSites = code.callSites := by
  induction bytes generalizing code with
  | nil => rfl
  | cons p bytes ih =>
    rw [putAll_cons, ih]
    rfl

/-- No operation notes a call. -/
theorem callSites_step (code : ObjectCode) (op : Operation) : (code.step op).2.callSites = code.callSites := by
  cases op with
  | setPc | clear => rfl
  | advance amount =>
    rw [step, advance]
    split_ifs <;> rfl
  | setGuard address =>
    rw [step, setGuard]
    split_ifs <;> rfl
  | write bytes origin =>
    cases hrefusal : code.refusal bytes.length with
    | some fault => rw [step, write_refused hrefusal]
    | none =>
      rw [step, write_carried hrefusal]
      split_ifs <;> exact callSites_putAll origin bytes code

/-- A change that a statement may make is one that gives bytes its own origin. -/
theorem emits_after {may : Doing → Prop} {code : ObjectCode} {action : Action} (h : code.Admits may p action) :
    Emits (may .moving) p code (code.after action) := by
  have hnone {c' : ObjectCode} (hsites : c'.callSites = code.callSites) :
      ∃ noted : Array Origin, c'.callSites = code.callSites ++ noted ∧ ∀ o ∈ noted, o.Alongside p :=
    ⟨#[], by rw [hsites, Array.append_empty], fun o ho => by simp at ho⟩
  cases action with
  | operation op =>
    refine ⟨hnone (code.callSites_step op), fun a ha => ?_⟩
    rcases code.step_cell op ha with ⟨hclears, -, hcell⟩ | ⟨-, hfree, byte, known, origin, ⟨bytes, rfl⟩, -, hcell⟩ |
      ⟨-, -, guarded, hcell⟩
    · have hmoving : may .moving := by
        cases op with
        | clear => exact h
        | _ => exact hclears.elim
      refine .inr (.inr ⟨hmoving, fun o ho => ?_⟩)
      rw [after, hcell] at ho
      cases ho
    · refine .inr (.inl ⟨hfree, ?_, origin, ?_, h.2⟩)
      · rw [after, hcell]
        rfl
      · rw [after, hcell]
        rfl
    · rw [after, hcell]
      exact .inl ⟨rfl, rfl⟩
  | copy start stop target =>
    refine ⟨hnone ?_, fun a ha => .inr (.inr ⟨h, fun o ho => .inr ?_⟩)⟩
    · rw [after, copy]
      split_ifs <;> rfl
    · obtain ⟨b, -, hb, hcell⟩ := code.cell_copy start stop target ha
      exact ⟨b, hb, hcell ▸ ho⟩
  | set callSites cpu chars =>
    refine ⟨?_, fun a _ => .inl ⟨rfl, rfl⟩⟩
    rcases h with hsame | ⟨-, o, hat, hpushed⟩
    · exact hnone hsame
    · refine ⟨#[o], hpushed.trans Array.push_eq_append, fun o' ho' => ?_⟩
      rwa [Array.mem_singleton.mp ho']

end

/-! ### Calls -/

/-- Whether all that refers to a call refers to one that was noted before. -/
structure IsLinked (c : ObjectCode) : Prop where
  cells : ∀ a < memorySize, ∀ o i, (c.cell a).origin = some o → o.parent = some i → i < c.callSites.size
  sites : ∀ (i : Nat) o j, c.callSites[i]? = some o → o.parent = some j → j < i

/-- At the start of a pass nothing refers to a call. -/
theorem isLinked_beginPass (code : ObjectCode) (firstPass : Bool) (cpu : UInt8) :
    (code.beginPass firstPass cpu).IsLinked where
  cells a _ o i ho _ := by
    rw [cell_beginPass] at ho
    cases ho
  sites i o j ho _ := by
    change (#[] : Array Origin)[i]? = some o at ho
    simp at ho

section
variable {bulk : Prop} {p : Origin} {c c' : ObjectCode}

/-- Calls keep their numbers. -/
theorem Emits.callSites (h : Emits bulk p c c') {i : Nat} {o : Origin} (ho : c.callSites[i]? = some o) :
    c'.callSites[i]? = some o := by
  obtain ⟨noted, hnoted, -⟩ := h.sites
  have hi : i < c.callSites.size := (Array.getElem?_eq_some_iff.mp ho).1
  rw [hnoted, Array.getElem?_append_left hi, ho]

/-- A statement among the lines of a call that was noted keeps everything linked. -/
theorem Emits.isLinked (h : Emits bulk p c c') (hc : c.IsLinked) (hp : ∀ i, p.parent = some i → i < c.callSites.size) :
    c'.IsLinked := by
  obtain ⟨noted, hnoted, hat⟩ := h.sites
  have hsize : c.callSites.size ≤ c'.callSites.size := by
    rw [hnoted, Array.size_append]
    exact Nat.le_add_right _ _
  refine ⟨fun a ha o i ho hi => Nat.lt_of_lt_of_le ?_ hsize, fun i o j ho hj => ?_⟩
  · rcases h.origin ha ho with hat | ⟨b, hb, hbefore⟩
    · exact hp i (hat.2.2 ▸ hi)
    · exact hc.cells b hb o i hbefore hi
  · rw [hnoted, Array.getElem?_append] at ho
    split_ifs at ho with hi
    · exact hc.sites i o j ho hj
    · have hlt := hp j ((hat o (Array.mem_of_getElem? ho)).2.2 ▸ hj)
      omega

end
end ObjectCode

/-- A line of a file. -/
abbrev SourceLine := Option Path × Nat

/-- The calls around a place, innermost first, as the number of the innermost one is
followed outwards. -/
inductive IsCallStack (files : Array Path) (sites : Array Origin) : Option Nat → List SourceLine → Prop
  | nil : IsCallStack files sites none []
  | cons {i : Nat} {o : Origin} {path : Path} {calls : List SourceLine} (hsite : sites[i]? = some o)
      (hpath : files[o.file]? = some path) (hbefore : ∀ j, o.parent = some j → j < i)
      (houter : IsCallStack files sites o.parent calls) : IsCallStack files sites (some i) ((some path, o.line) :: calls)

namespace IsCallStack

variable {files files' : Array Path} {sites sites' : Array Origin} {site : Option Nat} {calls : List SourceLine}

/-- Files and calls that are noted later do not matter. -/
theorem mono (h : IsCallStack files sites site calls) (hfiles : FilesGrow files files')
    (hgrow : ∀ (i : Nat) o, sites[i]? = some o → sites'[i]? = some o) : IsCallStack files' sites' site calls := by
  induction h with
  | nil => exact .nil
  | cons hsite hpath hbefore _ ih => exact .cons (hgrow _ _ hsite) (hfiles _ _ hpath) hbefore ih

theorem lt_size (h : IsCallStack files sites site calls) : ∀ i, site = some i → i < sites.size := by
  cases h with
  | nil => exact fun i hi => by cases hi
  | cons hsite =>
    rintro i ⟨⟩
    exact (Array.getElem?_eq_some_iff.mp hsite).1

end IsCallStack
end Asm6502
