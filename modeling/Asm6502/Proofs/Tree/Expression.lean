/-
# How the tree of an expression is laid out

The operands of a phrase stand one after the other on its columns, with an operator
between those that it joins and a function or a sign before those that it takes. A
bracket leaves no trace, so it only takes up columns. The text of an `EVAL` is no
part of the tree.

Key theorems: `Expr.Derives.row`, `Expr.row_of_evaluate`.
-/
import Asm6502.Proofs.Expr.Grammar
import Asm6502.Proofs.Tree.Layout

namespace Asm6502

namespace Cursor

variable {c d : Cursor}

theorem Reaches.column_le (h : c.Reaches d) : c.column ≤ d.column := by
  obtain ⟨n, rfl⟩ := h
  exact Nat.le_add_right _ _

theorem column_le_skip (c : Cursor) (n : Nat) : c.column ≤ (c.skip n).column := (c.reaches_skip n).column_le

theorem column_le_skipBlanks (c : Cursor) : c.column ≤ c.skipBlanks.column := c.reaches_skipBlanks.column_le

/-- A character takes at least one byte. -/
theorem column_lt_skip {n : Nat} (hn : 0 < n) (hrest : c.rest ≠ []) : c.column < (c.skip n).column := by
  obtain ⟨x, xs, hxs⟩ := List.exists_cons_of_ne_nil hrest
  obtain ⟨k, rfl⟩ := Nat.exists_eq_succ_of_ne_zero hn.ne'
  have hpos := x.utf8Size_pos
  simp only [skip, hxs, List.take_succ_cons, byteLength]
  omega

theorem rest_ne_nil_of_peek {x : Char} (h : c.peek = some x) : c.rest ≠ [] := by
  intro hnil
  rw [peek, hnil] at h
  cases h

theorem column_lt_of_peek {x : Char} (h : c.peek = some x) : c.column < (c.skip 1).column :=
  column_lt_skip Nat.one_pos (rest_ne_nil_of_peek h)

theorem Passes.column_lt {signs : List Char} (h : c.Passes signs d) : c.skipBlanks.column < d.column := by
  obtain ⟨⟨x, -, hpeek⟩, rfl⟩ := h
  exact column_lt_of_peek hpeek

theorem Passes.column_le {signs : List Char} (h : c.Passes signs d) : c.column ≤ d.column :=
  c.column_le_skipBlanks.trans h.column_lt.le

end Cursor

namespace Expr

open Cursor Node

variable {ctx : Context} {allowance : Nat} {c d : Cursor} {s t : State}

theorem kind_atomOperand {column : Nat} {a : Atom} {o : Operand} {known : Bool}
    (h : atomOperand ctx column a s = .ok (o, known) t) :
    ∃ kind text, o.node = .leaf kind text column ∧ (kind = .value ∨ kind = .symbol) := by
  cases a with
  | literal value text =>
    cases h
    exact ⟨_, _, rfl, Or.inl rfl⟩
  | counter =>
    cases h
    exact ⟨_, _, rfl, Or.inl rfl⟩
  | now =>
    cases h
    exact ⟨_, _, rfl, Or.inl rfl⟩
  | name name =>
    unfold atomOperand at h
    obtain ⟨⟨value, known⟩, u, -, h⟩ := Eval.bind_ok_iff.mp h
    obtain ⟨h, -⟩ := Eval.pure_ok_iff.mp h
    cases h
    exact ⟨_, _, rfl, Or.inr rfl⟩

/-- The operands of a phrase stand one after the other on its columns. -/
theorem Derives.row {phrase : Phrase} {args : List Operand} {known : Bool}
    (h : Derives ctx allowance phrase c s args known d t) : Row c.column d.column (args.map Operand.node) := by
  have hfunction {c d e : Cursor} {text : String} {children : List Node} {n : Nat} (hn : 0 < n)
      (hrest : c.skipBlanks.rest ≠ []) (hchildren : Row (c.skipBlanks.skip n).column d.column children)
      (hle : d.column ≤ e.column) : Row c.column e.column [.mk .function text c.skipBlanks.column children] := by
    have hlt := column_lt_skip hn hrest
    have hlt' := hlt.trans_le hchildren.le
    exact .plain (fun h => by cases h) (fun h => by cases h) (fun h => by cases h) c.column_le_skipBlanks
      (hlt'.trans_le hle) (hchildren.mono hlt.le hle) (.nil le_rfl)
  induction h with
  | @atom _ c _ _ _ _ _ _ _ htoken hatom =>
    obtain ⟨rfl, -⟩ := Token.place_of_atom htoken
    obtain ⟨kind, text, hnode, hkind⟩ := kind_atomOperand hatom
    have hnext : Token.next? true 0 c.skipBlanks = some _ := htoken
    have hlt := column_lt_skip (Token.pos_of_next? hnext fun _ h => by cases h) (Token.rest_ne_nil_of_next? hnext)
    rw [List.map_singleton, hnode]
    refine .leaf ?_ ?_ c.column_le_skipBlanks hlt
    · rcases hkind with rfl | rfl <;> exact fun h => by cases h
    · rcases hkind with rfl | rfl <;> exact fun h => by cases h
  | signed hpass _ _ ih =>
    obtain ⟨hpeek, rfl⟩ := passes_one_iff.mp hpass
    exact hfunction Nat.one_pos (rest_ne_nil_of_peek hpeek) ih le_rfl
  | bracketed hopen _ hclose ih => exact ih.mono hopen.column_le hclose.column_le
  | call _ hfind _ hclose _ ih =>
    obtain ⟨x, xs, hcs, -⟩ := Function.exists_isUpper_of_find? hfind
    exact hfunction (Nat.succ_pos _) (by rw [hcs]; exact List.cons_ne_nil _ _) ih hclose.column_le
  | eval hfind _ hclose _ _ _ ih _ =>
    obtain ⟨x, xs, hcs, -⟩ := Function.exists_isUpper_of_find? hfind
    exact hfunction (Nat.succ_pos _) (by rw [hcs]; exact List.cons_ne_nil _ _) ih hclose.column_le
  | tighter _ ih => exact ih
  | @binary _ _ _ d e _ _ _ spelling _ _ _ _ _ _ _ hfind _ hright _ ihleft ihright =>
    obtain ⟨x, xs, hcs, -⟩ := BinaryOp.exists_ne_of_find? hfind
    have hlt : d.skipBlanks.column < (d.skipBlanks.skip spelling.length).column :=
      column_lt_skip (BinaryOp.find?_pos hfind) (by rw [hcs]; exact List.cons_ne_nil _ _)
    exact .operator (ihleft.mono le_rfl d.column_le_skipBlanks) (ihright.mono hlt le_rfl) (.nil le_rfl)
  | last _ ih => exact ih
  | more _ hcomma _ ih ihmore => exact ih.append (ihmore.mono hcomma.column_le le_rfl)

/-- The tree of an expression stands on the columns that the expression takes. -/
theorem row_of_evaluate {e : Evaluated} (h : evaluate ctx allowance c s = .ok e t) :
    Row c.column e.stop.column [e.node] := by
  rw [evaluate, evaluateWith_ok_iff] at h
  obtain ⟨o, hfinish, -, hnode⟩ := h
  obtain ⟨d, hd, hlength, -, hstop⟩ := exists_derives_of_finish (textsParse ctx allowance) hfinish
  rw [hnode, hstop]
  have hrow : Row c.skipBlanks.column d.skipBlanks.column [o.node] := hd.row.mono le_rfl d.column_le_skipBlanks
  have hlt : c.skipBlanks.column < d.skipBlanks.column := by
    have := hrow.bounds o.node (by rw [preorderAll_singleton]; exact self_mem_preorder _)
    omega
  exact .plain (fun h => by cases h) (fun h => by cases h) (fun h => by cases h) c.column_le_skipBlanks hlt hrow
    (.nil le_rfl)

end Expr
end Asm6502
