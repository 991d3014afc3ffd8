/-
# Places in a line

A cursor stands in a line behind what it has passed. That past tells its byte
column, and the column tells the past, so a column of a line is a place between
two of its characters. A label is named right behind a mark, and no other
statement starts there: between statements a cursor stands behind something
else, or before the end of a statement.

The text of a macro is made of whole lines; read again it gives these lines,
each perhaps without a carriage return at its end.

Key definitions: `Cursor.Stands`, `Cursor.Reaches`, `isMark`, `Cursor.Behind`,
`Cursor.Between`, `Text.unlines`.
Key theorems: `past_unique`, `Cursor.Stands.ofColumn`,
`Cursor.Between.unmarked`, `Text.lines_unlines`.
-/
import Asm6502.Proofs.Text.Cursor
import Asm6502.Text.Lines

namespace Asm6502

/-! ### Bytes and characters -/

theorem byteLength_append (xs ys : List Char) :
    byteLength (xs ++ ys) = byteLength xs + byteLength ys := by
  induction xs with
  | nil => simp [byteLength]
  | cons x xs ih => rw [List.cons_append, byteLength, byteLength, ih, Nat.add_assoc]

theorem dropBytes_append (xs ys : List Char) : dropBytes (byteLength xs) (xs ++ ys) = ys := by
  induction xs with
  | nil => rw [byteLength, List.nil_append, dropBytes]
  | cons x xs ih =>
    have hpos := x.utf8Size_pos
    obtain ⟨n, hn⟩ : ∃ n, byteLength (x :: xs) = n + 1 :=
      Nat.exists_eq_succ_of_ne_zero (by rw [byteLength]; omega)
    rw [hn, List.cons_append, dropBytes, ← hn, byteLength, Nat.add_sub_cancel_left, ih]

/-- Of one line, no two beginnings have the same number of bytes. -/
theorem past_unique {xs ys xs' ys' : List Char} (h : xs ++ ys = xs' ++ ys')
    (hlength : byteLength xs = byteLength xs') : xs = xs' := by
  have hys : ys = ys' := by
    rw [← dropBytes_append xs ys, h, hlength, dropBytes_append]
  rw [hys] at h
  exact List.append_cancel_right h

namespace Cursor

/-- The cursor stands in a line behind `past`. -/
structure Stands (line past : List Char) (c : Cursor) : Prop where
  line_eq : line = past ++ c.rest
  column_eq : c.column = byteLength past

theorem stands_ofText (text : String) : (ofText text).Stands text.toList [] := ⟨rfl, rfl⟩

theorem Stands.skip {line past : List Char} {c : Cursor} (h : c.Stands line past) (n : Nat) :
    (c.skip n).Stands line (past ++ c.rest.take n) where
  line_eq := by rw [Cursor.skip, List.append_assoc, List.take_append_drop, h.line_eq]
  column_eq := by rw [Cursor.skip, byteLength_append, h.column_eq]

/-- The column of a cursor leads back to it. -/
theorem Stands.ofColumn {text : String} {past : List Char} {c : Cursor}
    (h : c.Stands text.toList past) : Cursor.ofColumn text c.column = c := by
  rw [Cursor.ofColumn, h.line_eq, h.column_eq, dropBytes_append, ← h.column_eq]

/-- A place that is reached from another one by going on. -/
def Reaches (c d : Cursor) : Prop := ∃ n, d = c.skip n

theorem Reaches.refl (c : Cursor) : c.Reaches c := ⟨0, rfl⟩

theorem reaches_skip (c : Cursor) (n : Nat) : c.Reaches (c.skip n) := ⟨n, rfl⟩

theorem reaches_skipBlanks (c : Cursor) : c.Reaches c.skipBlanks := ⟨_, rfl⟩

theorem Reaches.trans {c d e : Cursor} (h : c.Reaches d) (h' : d.Reaches e) : c.Reaches e := by
  obtain ⟨n, rfl⟩ := h
  obtain ⟨k, rfl⟩ := h'
  refine ⟨n + k, ?_⟩
  simp only [skip, List.drop_drop, List.take_add, byteLength_append, Nat.add_assoc]

theorem Reaches.length_le {c d : Cursor} (h : c.Reaches d) : d.rest.length ≤ c.rest.length := by
  obtain ⟨n, rfl⟩ := h
  exact c.length_skip_le n

theorem reaches_skip_of_pos (c : Cursor) {n : Nat} (hn : 0 < n) : (c.skip 1).Reaches (c.skip n) := by
  obtain ⟨k, rfl⟩ := Nat.exists_eq_add_of_le hn
  refine ⟨k, ?_⟩
  simp only [skip, List.drop_drop, List.take_add, byteLength_append, Nat.add_assoc]

theorem Reaches.stands {line past : List Char} {c d : Cursor} (h : c.Reaches d)
    (hc : c.Stands line past) : ∃ past, d.Stands line past := by
  obtain ⟨n, rfl⟩ := h
  exact ⟨_, hc.skip n⟩

end Cursor

/-! ### Between statements -/

theorem isBlank_of_isStatementEnd {x : Char} (h : isStatementEnd x = true) : isBlank x = false := by
  simp only [isStatementEnd, Bool.or_eq_true, beq_iff_eq] at h
  rcases h with (rfl | rfl) | rfl <;> rfl

theorem head?_drop_statementLength (quoted : Bool) (depth : Nat) (cs : List Char) :
    (cs.drop (statementLength quoted depth cs)).head?.all isStatementEnd = true := by
  fun_induction statementLength quoted depth cs
  case case1 => rfl
  case case9 h => exact (Bool.and_eq_true_iff.mp h).1
  all_goals assumption

/-- A label is named right behind one of these. -/
def isMark (x : Char) : Bool := x == '.' || x == '*' || x == '^'

theorem isMark_of_isBlank {x : Char} (h : isBlank x = true) : isMark x = false := by
  simp only [isBlank, Bool.or_eq_true, beq_iff_eq] at h
  rcases h with rfl | rfl <;> rfl

/-- Whether a past ends with a mark. -/
def isMarked (past : List Char) : Bool := past.getLast?.any isMark

theorem isMarked_append {past cs : List Char} (h : cs ≠ []) : isMarked (past ++ cs) = isMarked cs := by
  rw [isMarked, isMarked, List.getLast?_append, List.getLast?_eq_some_getLast h]
  rfl

theorem isMark_of_isNameChar {x : Char} (h : isNameChar x = true) : isMark x = false := by
  by_contra hmark
  simp only [Bool.not_eq_false, isMark, Bool.or_eq_true, beq_iff_eq] at hmark
  rcases hmark with (rfl | rfl) | rfl
  all_goals exact absurd h (by decide)

/-- A small letter becomes a capital one, anything else stays as it is. -/
theorem toUpper_cases (x : Char) :
    (x.isLower = true ∧ x.toUpper.isUpper = true) ∨ x.toUpper = x := by
  unfold Char.toUpper
  split
  · rename_i hx
    have hlower : x.isLower = true := Bool.and_eq_true_iff.mpr ⟨decide_eq_true hx.1, decide_eq_true hx.2⟩
    obtain ⟨hmin, hmax⟩ : 97 ≤ x.val.toNat ∧ x.val.toNat ≤ 122 := hx
    have hupper (y : Char) (hy : y.val = x.val + ('A'.val - 'a'.val)) : y.isUpper = true := by
      have hval : y.val.toNat = x.val.toNat - 32 := by
        rw [hy, UInt32.toNat_add, show ('A'.val - 'a'.val).toNat = 4294967264 from rfl]
        omega
      have hle : 65 ≤ y.val.toNat ∧ y.val.toNat ≤ 90 := by omega
      exact decide_eq_true hle
    exact Or.inl ⟨hlower, hupper _ rfl⟩
  · exact Or.inr rfl

theorem isNameChar_of_letter {x : Char} (h : x.isUpper = true ∨ x.isLower = true) : isNameChar x = true := by
  have halpha : x.isAlpha = true := Bool.or_eq_true_iff.mpr h
  rw [isNameChar, Char.isAlphanum, halpha]
  rfl

/-- A mark is no letter. -/
theorem isMark_toUpper (x : Char) : isMark x.toUpper = isMark x := by
  rcases toUpper_cases x with ⟨hlower, hupper⟩ | hsame
  · rw [isMark_of_isNameChar (isNameChar_of_letter (Or.inl hupper)),
      isMark_of_isNameChar (isNameChar_of_letter (Or.inr hlower))]
  · rw [hsame]

theorem isMarked_map_toUpper (cs : List Char) : isMarked (cs.map Char.toUpper) = isMarked cs := by
  rw [isMarked, isMarked, List.getLast?_map]
  cases cs.getLast? with
  | none => rfl
  | some x => exact isMark_toUpper x

namespace Cursor

/-- A place in a line, with whether it is right behind a mark. -/
def Behind (line : List Char) (marked : Bool) (c : Cursor) : Prop :=
  ∃ past, c.Stands line past ∧ isMarked past = marked

/-- Where a statement may start in a line. -/
def Between (line : List Char) (c : Cursor) : Prop :=
  ∃ past, c.Stands line past ∧ (c.atStatementEnd = true ∨ isMarked past = false)

theorem between_of_atStatementEnd {line past : List Char} {c : Cursor} (h : c.Stands line past)
    (hend : c.atStatementEnd = true) : c.Between line := ⟨past, h, Or.inl hend⟩

/-- A statement that starts with a name does not start behind a mark. -/
theorem Between.unmarked {line : List Char} {c : Cursor} (h : c.Between line)
    (hname : c.skipBlanks.atName = true) : c.skipBlanks.Behind line false := by
  obtain ⟨past, hc, hpast⟩ := h
  refine ⟨_, hc.skip _, ?_⟩
  have htake : c.rest.take (c.rest.takeWhile isBlank).length = c.rest.takeWhile isBlank :=
    List.prefix_iff_eq_take.mp (List.takeWhile_prefix _) |>.symm
  rw [htake, isMarked]
  cases hblanks : (c.rest.takeWhile isBlank).getLast? with
  | some x =>
    have hx : isBlank x = true := List.mem_takeWhile_imp (List.mem_of_getLast? hblanks)
    rw [List.getLast?_append, hblanks]
    exact isMark_of_isBlank hx
  | none =>
    have hnil := List.getLast?_eq_none_iff.mp hblanks
    rw [hnil, List.append_nil]
    refine hpast.resolve_left fun hend => ?_
    -- what ends a statement starts no name
    have hhead : c.skipBlanks.peek.any isNameChar = true := by
      unfold atName at hname
      unfold peek
      split at hname
      · cases hname
      · rename_i x xs hrest
        rw [hrest]
        exact isNameChar_of_isNameStart hname
    rw [← atStatementEnd_skipBlanks] at hend
    rw [not_isNameChar_of_atStatementEnd hend] at hhead
    cases hhead

theorem take_nameLength_ne_nil {c : Cursor} (h : c.atName = true) :
    c.rest.take (nameLength c.rest) ≠ [] := by
  unfold atName at h
  split at h
  · cases h
  · rename_i x xs hrest
    rw [hrest, nameLength_cons, if_pos (isNameChar_of_isNameStart h)]
    exact List.cons_ne_nil _ _

theorem nameLength_pos {c : Cursor} (h : c.atName = true) : 0 < nameLength c.rest := by
  have htake := List.length_pos_iff.mpr (take_nameLength_ne_nil h)
  rw [List.length_take] at htake
  omega

theorem length_name_lt (c : Cursor) (h : c.atName = true) : c.name.2.rest.length < c.rest.length := by
  have htake := List.length_pos_iff.mpr (take_nameLength_ne_nil h)
  rw [List.length_take] at htake
  simp only [name, skip, List.length_drop]
  omega

/-- After a name a statement may start. -/
theorem Stands.between_name {line past : List Char} {c : Cursor} (h : c.Stands line past)
    (hname : c.atName = true) : c.name.2.Between line := by
  refine ⟨_, h.skip _, Or.inr ?_⟩
  rw [isMarked_append (take_nameLength_ne_nil hname), isMarked]
  cases hlast : (c.rest.take (nameLength c.rest)).getLast? with
  | none => rfl
  | some x =>
    rcases mem_take_nameLength (List.mem_of_getLast? hlast) with hx | rfl | rfl
    · exact isMark_of_isNameChar hx
    · rfl
    · rfl

/-- Something is skipped unless the statement ends right here. -/
theorem statementLength_pos {x : Char} (hx : isStatementEnd x = false) (cs : List Char) :
    0 < statementLength false 0 (x :: cs) := by
  unfold statementLength
  split_ifs
  all_goals first
    | exact Nat.succ_pos _
    | simp_all
  split
  · split_ifs <;> exact Nat.succ_pos _
  · exact Nat.succ_pos _

theorem statementLength_pos_of_atName {c : Cursor} (h : c.atName = true) :
    0 < statementLength false 0 c.rest := by
  unfold atName at h
  split at h
  · cases h
  · rename_i x xs hrest
    rw [hrest]
    exact statementLength_pos (isStatementEnd_of_isNameChar (isNameChar_of_isNameStart h)) xs

/-- What is skipped goes up to the end of a statement. -/
theorem atStatementEnd_skipStatement (c : Cursor) : c.skipStatement.atStatementEnd = true := by
  have hend := head?_drop_statementLength false 0 c.rest
  rw [atStatementEnd, rest_skipBlanks, skipStatement, skip]
  dsimp only
  cases hrest : c.rest.drop (statementLength false 0 c.rest) with
  | nil => rfl
  | cons x xs =>
    rw [hrest] at hend
    have hx : isStatementEnd x = true := hend
    rw [List.dropWhile_cons_of_neg (by simp [isBlank_of_isStatementEnd hx])]
    exact hx

end Cursor

/-! ### Lines of a text -/

namespace Text

/-- Lines put together to a text. -/
def unlines (ls : List String) : String := ls.foldl (fun text line => text ++ line ++ "\n") ""

theorem linesFrom_feed {line rest : List Char} (h : '\n' ∉ line) (acc : List Char) :
    linesFrom acc (line ++ '\n' :: rest) = endedLine (line.reverse ++ acc) :: linesFrom [] rest := by
  induction line generalizing acc with
  | nil => rfl
  | cons x line ih =>
    have hx : x ≠ '\n' := fun hx => h (hx ▸ List.mem_cons_self)
    rw [List.cons_append, linesFrom, ih (fun hm => h (List.mem_cons_of_mem _ hm))]
    · simp
    · simpa using hx

theorem toList_foldl_unlines (ls : List String) (text : String) :
    (ls.foldl (fun text line => text ++ line ++ "\n") text).toList =
      text.toList ++ (ls.map fun line => line.toList ++ ['\n']).flatten := by
  induction ls generalizing text with
  | nil => simp
  | cons line ls ih => simp [ih]

/-- Lines that were put together are found again. -/
theorem lines_unlines {ls : List String} (h : ∀ line ∈ ls, '\n' ∉ line.toList) :
    lines (unlines ls) = ls.map fun line => endedLine line.toList.reverse := by
  rw [lines, unlines, toList_foldl_unlines, String.toList_empty, List.nil_append]
  induction ls with
  | nil => rfl
  | cons line ls ih =>
    rw [List.map_cons, List.flatten_cons, List.append_assoc, List.singleton_append,
      linesFrom_feed (h line List.mem_cons_self), List.append_nil, List.map_cons,
      ih fun other hmem => h other (List.mem_cons_of_mem _ hmem)]

theorem prefix_endedLine (line : List Char) : (endedLine line.reverse).toList <+: line := by
  unfold endedLine
  split
  · rename_i cs hcs
    rw [String.toList_ofList, ← List.reverse_reverse line, hcs, List.reverse_cons]
    exact List.prefix_append _ _
  · have heq : (String.ofList line.reverse.reverse).toList = line := by
      rw [String.toList_ofList, List.reverse_reverse]
    exact ⟨[], by rw [List.append_nil, heq]⟩

theorem not_mem_of_mem_linesFrom {cs acc : List Char} {line : String} (hacc : '\n' ∉ acc)
    (h : line ∈ linesFrom acc cs) : '\n' ∉ line.toList := by
  fun_induction linesFrom acc cs with
  | case1 => cases h
  | case2 acc =>
    rw [List.mem_singleton.mp h, String.toList_ofList]
    simpa using hacc
  | case3 acc cs ih =>
    rcases List.mem_cons.mp h with rfl | h
    · have hline := prefix_endedLine acc.reverse
      rw [List.reverse_reverse] at hline
      exact fun hmem => hacc (List.mem_reverse.mp (hline.subset hmem))
    · exact ih (by simp) h
  | case4 acc x cs hx ih =>
    refine ih (fun hmem => ?_) h
    rcases List.mem_cons.mp hmem with rfl | hmem
    · exact hx rfl
    · exact hacc hmem

theorem not_mem_of_mem_lines {text line : String} (h : line ∈ lines text) : '\n' ∉ line.toList :=
  not_mem_of_mem_linesFrom (by simp) h

end Text
end Asm6502
