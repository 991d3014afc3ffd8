/-
# How far a skipped statement goes

What skips a statement looks only at quotes, brackets and the signs that end a
statement. A piece of text is spanned if it gets from one end of the piece to
the other with as many brackets open as before, whatever comes after the piece:
ordinary characters, quoted texts and brackets around what is spanned. Pieces
that follow each other are spanned together. So if a statement is spanned up to
where it ends, it is skipped up to there.

Key definitions: `isOrdinary`, `Cursor.Spans`.
Key theorems: `Cursor.Spans.bracketed`, `Cursor.Spans.skipStatement_eq`.
-/
import Asm6502.Proofs.Text.Place

namespace Asm6502

/-- A character that means nothing to what skips a statement. -/
def isOrdinary (x : Char) : Bool :=
  x != '"' && x != '\'' && x != '(' && x != ')' && !isStatementEnd x

theorem isOrdinary_of_isNameChar {x : Char} (h : isNameChar x = true) : isOrdinary x = true := by
  simp only [isOrdinary, isStatementEnd_of_isNameChar h, Bool.not_false, Bool.and_true, Bool.and_eq_true,
    bne_iff_ne]
  refine ⟨⟨⟨?_, ?_⟩, ?_⟩, ?_⟩ <;> rintro rfl <;> exact absurd h (by decide)

theorem isOrdinary_of_isBlank {x : Char} (h : isBlank x = true) : isOrdinary x = true := by
  simp only [isBlank, Bool.or_eq_true, beq_iff_eq] at h
  rcases h with rfl | rfl <;> rfl

/-- What is ordinary in upper case is so in lower case. -/
theorem isOrdinary_of_toUpper {x : Char} (h : isOrdinary x.toUpper = true) : isOrdinary x = true := by
  rcases toUpper_cases x with ⟨hlower, -⟩ | hsame
  · exact isOrdinary_of_isNameChar (isNameChar_of_letter (Or.inr hlower))
  · rwa [hsame] at h

/-! ### Characters that are passed over -/

theorem statementLength_cons {x : Char} (h : isOrdinary x = true) (depth : Nat) (cs : List Char) :
    statementLength false depth (x :: cs) = statementLength false depth cs + 1 := by
  simp only [isOrdinary, Bool.and_eq_true, bne_iff_ne, Bool.not_eq_true'] at h
  obtain ⟨⟨⟨⟨hquote, hliteral⟩, hopening⟩, hclosing⟩, hend⟩ := h
  rw [statementLength.eq_def]
  simp [hquote, hliteral, hopening, hclosing, hend]

theorem statementLength_opening (depth : Nat) (cs : List Char) :
    statementLength false depth ('(' :: cs) = statementLength false (depth + 1) cs + 1 := by
  rw [statementLength.eq_def]
  simp

theorem statementLength_closing (depth : Nat) (cs : List Char) :
    statementLength false depth (')' :: cs) = statementLength false (depth - 1) cs + 1 := by
  rw [statementLength.eq_def]
  simp

theorem statementLength_of_isStatementEnd {x : Char} (h : isStatementEnd x = true) (cs : List Char) :
    statementLength false 0 (x :: cs) = 0 := by
  have hsign : x = ':' ∨ x = ';' ∨ x = '\\' := by simpa [isStatementEnd, or_assoc] using h
  rw [statementLength.eq_def]
  rcases hsign with rfl | rfl | rfl <;> simp [isStatementEnd]

theorem statementLength_append {xs : List Char} (h : ∀ x ∈ xs, isOrdinary x = true) (depth : Nat)
    (cs : List Char) :
    statementLength false depth (xs ++ cs) = xs.length + statementLength false depth cs := by
  induction xs with
  | nil => simp
  | cons x xs ih =>
    rw [List.cons_append, statementLength_cons (h x List.mem_cons_self),
      ih fun y hy => h y (List.mem_cons_of_mem _ hy), List.length_cons]
    omega

/-- Where a statement ends, nothing more is skipped but blanks. -/
theorem statementLength_of_atStatementEnd {c : Cursor} (h : c.atStatementEnd = true) :
    statementLength false 0 c.rest = (c.rest.takeWhile isBlank).length := by
  have hblanks : ∀ x ∈ c.rest.takeWhile isBlank, isOrdinary x = true := fun x hx =>
    isOrdinary_of_isBlank (List.mem_takeWhile_imp hx)
  have hends : statementLength false 0 (c.rest.dropWhile isBlank) = 0 := by
    unfold Cursor.atStatementEnd at h
    rw [Cursor.rest_skipBlanks] at h
    cases hrest : c.rest.dropWhile isBlank with
    | nil => rfl
    | cons x cs =>
      rw [hrest] at h
      exact statementLength_of_isStatementEnd h cs
  calc statementLength false 0 c.rest
      = statementLength false 0 (c.rest.takeWhile isBlank ++ c.rest.dropWhile isBlank) := by
        rw [List.takeWhile_append_dropWhile]
    _ = (c.rest.takeWhile isBlank).length := by rw [statementLength_append hblanks, hends, Nat.add_zero]

namespace Cursor

/-- What skips a statement gets from the one place to the other, with as many
brackets open as before. -/
def Spans (c d : Cursor) : Prop :=
  ∃ n, d = c.skip n ∧ ∀ depth, statementLength false depth c.rest = n + statementLength false depth d.rest

variable {c d e f : Cursor}

theorem Spans.refl (c : Cursor) : c.Spans c := ⟨0, rfl, fun depth => by rw [Nat.zero_add]⟩

theorem skip_skip (c : Cursor) (n k : Nat) : (c.skip n).skip k = c.skip (n + k) := by
  simp only [skip, List.drop_drop, List.take_add, byteLength_append, Nat.add_assoc]

theorem Spans.trans (h : c.Spans d) (h' : d.Spans e) : c.Spans e := by
  obtain ⟨n, rfl, hn⟩ := h
  obtain ⟨k, rfl, hk⟩ := h'
  refine ⟨n + k, skip_skip c n k, fun depth => ?_⟩
  rw [hn, hk, Nat.add_assoc]

/-- A statement that is spanned up to its end is skipped up to there. -/
theorem Spans.skipStatement_eq (h : c.Spans d) (hend : d.atStatementEnd = true) :
    c.skipStatement = d.skipBlanks := by
  obtain ⟨n, rfl, hn⟩ := h
  rw [skipStatement, hn, statementLength_of_atStatementEnd hend, ← skip_skip]
  rfl

/-- Places between which a statement is spanned are skipped to the same end. -/
theorem Spans.skipStatement_congr (h : c.Spans d) : c.skipStatement = d.skipStatement := by
  obtain ⟨n, rfl, hn⟩ := h
  rw [skipStatement, hn, ← skip_skip]
  rfl

/-- No blanks are left where a skipped statement ends. -/
theorem skipBlanks_skipStatement (c : Cursor) : c.skipStatement.skipBlanks = c.skipStatement := by
  have hend := head?_drop_statementLength false 0 c.rest
  have hblanks : (c.skipStatement.rest.takeWhile isBlank) = [] := by
    rw [skipStatement, skip]
    cases hrest : c.rest.drop (statementLength false 0 c.rest) with
    | nil => rfl
    | cons x xs =>
      rw [hrest] at hend
      have hx : isBlank x = false := isBlank_of_isStatementEnd hend
      exact List.takeWhile_cons_of_neg (by simp [hx])
  rw [skipBlanks, hblanks]
  exact skip_zero _

/-! ### Pieces of text -/

theorem skip_length_append {xs cs : List Char} (h : c.rest = xs ++ cs) : (c.skip xs.length).rest = cs := by
  rw [skip, h, List.drop_left]

theorem spans_append {xs cs : List Char} (hrest : c.rest = xs ++ cs) (h : ∀ x ∈ xs, isOrdinary x = true) :
    c.Spans (c.skip xs.length) := by
  refine ⟨xs.length, rfl, fun depth => ?_⟩
  rw [skip_length_append hrest, hrest, statementLength_append h]

theorem skip_length_take (c : Cursor) (n : Nat) : c.skip (c.rest.take n).length = c.skip n := by
  simp only [skip, List.length_take]
  rw [← List.take_eq_take_min, ← List.drop_eq_drop_min]

/-- Ordinary characters are spanned. -/
theorem spans_skip {n : Nat} (h : ∀ x ∈ c.rest.take n, isOrdinary x = true) : c.Spans (c.skip n) := by
  rw [← skip_length_take]
  exact spans_append (List.take_append_drop n c.rest).symm h

theorem spans_skip_one {x : Char} (hpeek : c.peek = some x) (hx : isOrdinary x = true) : c.Spans (c.skip 1) := by
  obtain ⟨cs, hcs⟩ := List.head?_eq_some_iff.mp hpeek
  refine spans_skip fun y hy => ?_
  rw [hcs] at hy
  obtain rfl : y = x := by simpa using hy
  exact hx

theorem spans_skipBlanks (c : Cursor) : c.Spans c.skipBlanks :=
  spans_append (List.takeWhile_append_dropWhile (p := isBlank)).symm
    fun _ hx => isOrdinary_of_isBlank (List.mem_takeWhile_imp hx)

theorem spans_name (c : Cursor) : c.Spans (c.skip (nameLength c.rest)) := by
  refine spans_skip fun x hx => ?_
  rcases mem_take_nameLength hx with hx | rfl | rfl
  · exact isOrdinary_of_isNameChar hx
  · rfl
  · rfl

/-- A word is spanned in any case. -/
theorem spans_startsWith {word : List Char} (hword : word.all isOrdinary = true)
    (h : startsWith word c.rest = true) : c.Spans (c.skip word.length) := by
  refine spans_skip fun x hx => isOrdinary_of_toUpper (List.all_eq_true.mp hword _ ?_)
  rw [← beq_iff_eq.mp h]
  exact List.mem_map_of_mem hx

theorem passes_of_peek {x : Char} (hpeek : c.peek = some x) (hx : isBlank x = false) : c.Passes [x] (c.skip 1) := by
  obtain ⟨cs, hcs⟩ := List.head?_eq_some_iff.mp hpeek
  have hblanks : c.skipBlanks = c := by
    rw [skipBlanks, hcs, List.takeWhile_cons_of_neg (by simp [hx])]
    exact skip_zero c
  rw [passes_one_iff, hblanks]
  exact ⟨hpeek, rfl⟩

theorem Passes.spans {signs : List Char} (h : c.Passes signs d) (hsigns : signs.all isOrdinary = true) :
    c.Spans d := by
  obtain ⟨⟨x, hx, hpeek⟩, rfl⟩ := h
  exact c.spans_skipBlanks.trans (spans_skip_one hpeek (List.all_eq_true.mp hsigns x hx))

/-- What is spanned is spanned in brackets. -/
theorem Spans.bracketed (hopen : c.Passes ['('] d) (h : d.Spans e) (hclose : e.Passes [')'] f) : c.Spans f := by
  obtain ⟨hpeek, rfl⟩ := passes_one_iff.mp hopen
  obtain ⟨hpeek', rfl⟩ := passes_one_iff.mp hclose
  obtain ⟨n, hn, hdepth⟩ := h.trans e.spans_skipBlanks
  obtain ⟨cs, hcs⟩ := List.head?_eq_some_iff.mp hpeek
  obtain ⟨cs', hcs'⟩ := List.head?_eq_some_iff.mp hpeek'
  refine c.spans_skipBlanks.trans ⟨1 + n + 1, ?_, fun depth => ?_⟩
  · rw [hn, skip_skip, skip_skip, Nat.add_assoc]
  · have hinside : (c.skipBlanks.skip 1).rest = cs := by rw [skip, hcs]; rfl
    have hafter : (e.skipBlanks.skip 1).rest = cs' := by rw [skip, hcs']; rfl
    calc statementLength false depth c.skipBlanks.rest
        = statementLength false (depth + 1) cs + 1 := by rw [hcs, statementLength_opening]
      _ = n + statementLength false (depth + 1) e.skipBlanks.rest + 1 := by rw [← hinside, hdepth]
      _ = n + (statementLength false depth cs' + 1) + 1 := by rw [hcs', statementLength_closing]; rfl
      _ = 1 + n + 1 + statementLength false depth (e.skipBlanks.skip 1).rest := by rw [hafter]; omega

/-- A literal for a character of one byte is spanned, whatever the character. -/
theorem spans_character {x : Char} {cs : List Char} (hrest : c.rest = '\'' :: x :: '\'' :: cs)
    (hx : x.utf8Size = 1) : c.Spans (c.skip 3) := by
  refine ⟨3, rfl, fun depth => ?_⟩
  have hafter : (c.skip 3).rest = cs := by rw [skip, hrest]; rfl
  rw [hafter, hrest, statementLength]
  simp [hx, Nat.add_comm]

end Cursor
end Asm6502
