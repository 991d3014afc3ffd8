/-
# Moving along a line

Blanks are skipped once and for all. A name read from a line has letters,
digits and underscores and at most one sign at its end; so it has no `@`, which
is what keeps the scopes in a full name apart from the name itself.

Key definitions: `IsPlain`, `Cursor.Passes`.
Key theorems: `Cursor.skipBlanks_skipBlanks`, `mem_take_nameLength`,
`Cursor.isPlain_name`.
-/
import Mathlib.Data.List.TakeWhile
import Mathlib.Tactic.ByContra
import Mathlib.Tactic.SplitIfs
import Asm6502.Text.Cursor

namespace Asm6502

theorem isBlank_of_isNameChar {x : Char} (h : isNameChar x = true) : isBlank x = false := by
  simp only [isBlank, Bool.or_eq_false_iff, beq_eq_false_iff_ne]
  constructor <;> rintro rfl <;> exact absurd h (by decide)

theorem isStatementEnd_of_isNameChar {x : Char} (h : isNameChar x = true) :
    isStatementEnd x = false := by
  simp only [isStatementEnd, Bool.or_eq_false_iff, beq_eq_false_iff_ne]
  refine ⟨⟨?_, ?_⟩, ?_⟩ <;> rintro rfl <;> exact absurd h (by decide)

theorem isNameChar_of_isNameStart {x : Char} (h : isNameStart x = true) : isNameChar x = true := by
  simp only [isNameStart, Bool.or_eq_true] at h
  simp only [isNameChar, Char.isAlphanum, Bool.or_eq_true]
  exact h.imp_left Or.inl

namespace Cursor

theorem skip_zero (c : Cursor) : c.skip 0 = c := rfl

theorem rest_skipBlanks (c : Cursor) : c.skipBlanks.rest = c.rest.dropWhile isBlank := by
  simp only [skipBlanks, skip]
  induction c.rest with
  | nil => rfl
  | cons x cs ih =>
    rw [List.takeWhile_cons, List.dropWhile_cons]
    split_ifs
    · exact ih
    · rfl

theorem length_skip_le (n : Nat) (c : Cursor) : (c.skip n).rest.length ≤ c.rest.length := by
  simp [skip]

theorem length_skipBlanks_le (c : Cursor) : c.skipBlanks.rest.length ≤ c.rest.length :=
  length_skip_le _ c

theorem length_skipBlanks_skip_lt {c : Cursor} {x : Char} (h : c.skipBlanks.peek = some x) {n : Nat}
    (hn : 0 < n) : (c.skipBlanks.skip n).rest.length < c.rest.length := by
  obtain ⟨cs, hcs⟩ := List.head?_eq_some_iff.mp h
  have hle := c.length_skipBlanks_le
  have hpos : 0 < c.skipBlanks.rest.length := by simp [hcs]
  simp only [skip, List.length_drop]
  omega

@[simp]
theorem skipBlanks_skipBlanks (c : Cursor) : c.skipBlanks.skipBlanks = c.skipBlanks := by
  have h : c.skipBlanks.rest.takeWhile isBlank = [] := by
    rw [rest_skipBlanks]
    exact List.takeWhile_eq_nil_iff.mpr (List.dropWhile_get_zero_not isBlank c.rest)
  have hskip (d : Cursor) (hd : d.rest.takeWhile isBlank = []) : d.skipBlanks = d := by
    rw [skipBlanks, hd]
    exact skip_zero d
  exact hskip _ h

@[simp]
theorem atStatementEnd_skipBlanks (c : Cursor) :
    c.skipBlanks.atStatementEnd = c.atStatementEnd := by
  simp only [atStatementEnd, skipBlanks_skipBlanks]

/-- Whether one of the signs comes next, blanks apart, and `d` is the place after
it. -/
def Passes (signs : List Char) (c d : Cursor) : Prop :=
  (∃ x ∈ signs, c.skipBlanks.peek = some x) ∧ d = c.skipBlanks.skip 1

theorem passes_one_iff {x : Char} {c d : Cursor} :
    c.Passes [x] d ↔ c.skipBlanks.peek = some x ∧ d = c.skipBlanks.skip 1 := by
  simp [Passes]

theorem passes_two_iff {x y : Char} {c d : Cursor} :
    c.Passes [x, y] d ↔
      ¬ (c.skipBlanks.peek != some x && c.skipBlanks.peek != some y) = true ∧
        d = c.skipBlanks.skip 1 := by
  have h : (∃ z ∈ [x, y], c.skipBlanks.peek = some z) ↔
      c.skipBlanks.peek = some x ∨ c.skipBlanks.peek = some y := by simp
  rw [Passes, h]
  simp [or_iff_not_imp_left]

theorem Passes.eq {signs signs' : List Char} {c d d' : Cursor} (h : c.Passes signs d)
    (h' : c.Passes signs' d') : d = d' := h.2.trans h'.2.symm

theorem Passes.false_of_disjoint {signs signs' : List Char} {c d d' : Cursor} (h : c.Passes signs d)
    (h' : c.Passes signs' d') (hdisjoint : ∀ x ∈ signs, x ∉ signs') : False := by
  obtain ⟨⟨x, hx, hpeek⟩, -⟩ := h
  obtain ⟨⟨y, hy, hpeek'⟩, -⟩ := h'
  obtain rfl : x = y := Option.some.inj (hpeek.symm.trans hpeek')
  exact hdisjoint x hx hy

theorem Passes.not_atStatementEnd {signs : List Char} {c d : Cursor} (h : c.Passes signs d)
    (hsigns : ∀ x ∈ signs, isStatementEnd x = false) : ¬ c.atStatementEnd = true := by
  obtain ⟨⟨x, hx, hpeek⟩, -⟩ := h
  obtain ⟨rest, hrest⟩ := List.head?_eq_some_iff.mp hpeek
  simp [atStatementEnd, hrest, hsigns x hx]

theorem not_isNameChar_of_atStatementEnd {c : Cursor} (h : c.atStatementEnd = true) :
    c.peek.any isNameChar = false := by
  obtain ⟨column, rest⟩ := c
  cases rest with
  | nil => rfl
  | cons x cs =>
    by_contra hx
    have hx : isNameChar x = true := by simpa [peek] using hx
    rw [atStatementEnd, rest_skipBlanks, List.dropWhile_cons_of_neg (by simp [isBlank_of_isNameChar hx])] at h
    simp only [isStatementEnd_of_isNameChar hx] at h
    cases h

end Cursor

/-- A name without the sign that sets off scopes. -/
def IsPlain (name : String) : Prop := '@' ∉ name.toList

theorem nameLength_cons (c : Char) (cs : List Char) :
    nameLength (c :: cs) =
      if isNameChar c then nameLength cs + 1 else if c = '%' ∨ c = '$' then 1 else 0 := by
  unfold nameLength
  by_cases h : isNameChar c = true
  · simp only [List.takeWhile_cons, h, if_true, List.length_cons, List.drop_succ_cons]
    split <;> rfl
  · simp only [List.takeWhile_cons, h, Bool.false_eq_true, if_false, List.length_nil, List.drop_zero]
    split <;> simp_all

theorem mem_take_nameLength : ∀ {cs : List Char} {c : Char}, c ∈ cs.take (nameLength cs) →
    isNameChar c = true ∨ c = '%' ∨ c = '$'
  | [], _, h => by simp at h
  | x :: cs, c, h => by
    rw [nameLength_cons] at h
    split_ifs at h with hx hs
    · rcases List.mem_cons.mp h with rfl | h
      · exact Or.inl hx
      · exact mem_take_nameLength h
    · obtain rfl : c = x := by simpa using h
      exact Or.inr hs
    · simp at h

theorem isPlain_take_nameLength (cs : List Char) :
    IsPlain (String.ofList (cs.take (nameLength cs))) := by
  intro h
  rw [String.toList_ofList] at h
  rcases mem_take_nameLength h with h | h | h
  · exact absurd h (by decide)
  · exact absurd h (by decide)
  · exact absurd h (by decide)

theorem Cursor.isPlain_name (c : Cursor) : IsPlain c.name.1 := isPlain_take_nameLength c.rest

end Asm6502
