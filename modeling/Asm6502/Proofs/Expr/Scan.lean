/-
# The tokens of an expression, one after the other

The scanner counts its steps. A token takes at least one character, so a count
as large as the rest of the line never runs out, and the scanner obeys the
equation that it would have without the count: the first token, then the tokens
from the place after it.

Key definitions: `Token.allFrom`.
Key theorems: `Token.pos_of_next?`, `Token.allFrom_cons`.
-/
import Mathlib.Tactic.ByContra
import Mathlib.Tactic.SplitIfs
import Asm6502.Expr.Token
import Asm6502.Proofs.Text.Cursor

namespace Asm6502

/-! ### The length of a token -/

theorem BinaryOp.find?_pos {cs : List Char} {spelling : String} {op : BinaryOp}
    (h : BinaryOp.find? cs = some (spelling, op)) : 0 < spelling.length := by
  have hall : ∀ p ∈ BinaryOp.spellings, 0 < p.1.length := by decide
  exact hall _ (List.mem_of_find?_eq_some h)

theorem Literal.decimal_pos {cs : List Char} {value : Value} {n : Nat}
    (h : Literal.decimal cs = .ok (value, n)) : 0 < n := by
  unfold Literal.decimal at h
  dsimp only at h
  split at h
  · cases h
  · rename_i x hread
    split_ifs at h
    obtain ⟨-, rfl⟩ := Prod.mk.inj (Except.ok.inj h)
    rw [List.length_pos_iff]
    intro hnil
    simp [hnil, Number.readDecimal] at hread

theorem UnaryOp.sign_of_ofSign? {x : Char} {op : UnaryOp} (h : UnaryOp.ofSign? x = some op) :
    op.sign = x := by
  unfold UnaryOp.ofSign? at h
  split at h <;> cases h <;> rfl

theorem exists_cons_of_startsWith {word cs : List Char} {holds : Char → Bool}
    (hword : word.head?.any holds = true) (h : startsWith word cs = true) :
    ∃ x xs, cs = x :: xs ∧ holds x.toUpper = true := by
  cases word with
  | nil => cases hword
  | cons y ys =>
    cases cs with
    | nil => simp [startsWith] at h
    | cons x xs =>
      simp only [startsWith, List.length_cons, List.take_succ_cons, List.map_cons, beq_iff_eq,
        List.cons.injEq] at h
      refine ⟨x, xs, rfl, ?_⟩
      rw [h.1]
      exact hword

/-- The name of a function starts with a letter. -/
theorem Function.exists_isUpper_of_find? {cs : List Char} {f : Function}
    (h : Function.find? cs = some f) : ∃ x xs, cs = x :: xs ∧ x.toUpper.isUpper = true := by
  have hall : ∀ e ∈ Function.table, (e.2.1.toList ++ ['(']).head?.any Char.isUpper = true := by decide
  obtain ⟨e, hfind, -⟩ := Option.map_eq_some_iff.mp h
  have hstarts := List.find?_some hfind
  exact exists_cons_of_startsWith (hall e (List.mem_of_find?_eq_some hfind)) hstarts

/-- No operator starts with a closing bracket or a comma. -/
theorem BinaryOp.exists_ne_of_find? {cs : List Char} {spelling : String} {op : BinaryOp}
    (h : BinaryOp.find? cs = some (spelling, op)) : ∃ x xs, cs = x :: xs ∧ x ≠ ')' ∧ x ≠ ',' := by
  have hall : ∀ p ∈ BinaryOp.spellings,
      p.1.toList.head?.any (fun y => y != ')' && y != ',') = true := by decide
  have hspelled := List.find?_some h
  simp only [BinaryOp.spelledAt, Bool.and_eq_true] at hspelled
  obtain ⟨x, xs, hcs, hx⟩ :=
    exists_cons_of_startsWith (hall _ (List.mem_of_find?_eq_some h)) hspelled.1
  refine ⟨x, xs, hcs, ?_, ?_⟩ <;> rintro rfl <;> exact absurd hx (by decide)

namespace Token

theorem pos_of_ofLiteral {c : Cursor} {marks : Nat} {result : Except Fault (Value × Nat)}
    (hmarks : ∀ value n, result = .ok (value, n) → 0 < marks + n) {token : Token} {n : Nat}
    (h : ofLiteral c marks result = (token, n)) (hbad : ∀ problem, token ≠ .bad problem) : 0 < n := by
  unfold ofLiteral at h
  split at h
  · exact absurd (Prod.mk.inj h).1.symm (hbad _)
  · rw [← (Prod.mk.inj h).2]
    exact hmarks _ _ rfl

theorem pos_of_operand {x : Char} {c : Cursor} (hx : c.rest.head? = some x) {token : Token} {n : Nat}
    (h : operand x c = (token, n)) (hbad : ∀ problem, token ≠ .bad problem) : 0 < n := by
  obtain ⟨cs, hcs⟩ := List.head?_eq_some_iff.mp hx
  unfold operand at h
  dsimp only at h
  split_ifs at h with h1 h2 h3 h4 h5 h6 h7
  · exact pos_of_ofLiteral (fun value n hd => by rw [Nat.zero_add]; exact Literal.decimal_pos hd) h hbad
  · exact pos_of_ofLiteral (fun _ _ _ => by omega) h hbad
  · exact pos_of_ofLiteral (fun _ _ _ => by omega) h hbad
  · rw [← (Prod.mk.inj h).2]
    exact Nat.one_pos
  · exact pos_of_ofLiteral (fun _ _ _ => by omega) h hbad
  · exact pos_of_ofLiteral (fun _ _ _ => by omega) h hbad
  · unfold ofName at h
    split_ifs at h
    · rw [← (Prod.mk.inj h).2]
      decide
    · rw [← (Prod.mk.inj h).2, hcs, nameLength_cons]
      rw [if_pos (isNameChar_of_isNameStart h7)]
      exact Nat.succ_pos _
  · exact absurd (Prod.mk.inj h).1.symm (hbad _)

/-- A token takes at least one character. -/
theorem pos_of_next? {value : Bool} {depth : Nat} {c : Cursor} {token : Token} {n : Nat}
    (h : next? value depth c = some (token, n)) (hbad : ∀ problem, token ≠ .bad problem) : 0 < n := by
  have hsize {t : Token} {k : Nat} (hk : 0 < k) (h : some (t, k) = some (token, n)) : 0 < n := by
    rwa [← (Prod.mk.inj (Option.some.inj h)).2]
  unfold next? at h
  split at h
  · unfold valueToken? at h
    split at h
    · cases h
    · rename_i x cs hcs
      split at h
      · exact hsize Nat.one_pos h
      · split at h
        · exact hsize Nat.one_pos h
        · exact hsize (Nat.succ_pos _) h
        · split at h
          · cases h
          · exact pos_of_operand (by rw [hcs]; rfl) (Option.some.inj h) hbad
  · unfold operatorToken? at h
    split at h
    · cases h
    · split at h
      · split_ifs at h
        exact hsize Nat.one_pos h
      · split at h
        · split_ifs at h
          exact hsize Nat.one_pos h
        · obtain ⟨⟨spelling, op⟩, hfind, hop⟩ := Option.map_eq_some_iff.mp h
          exact hsize (BinaryOp.find?_pos hfind) (congrArg some hop)

theorem rest_ne_nil_of_next? {value : Bool} {depth : Nat} {c : Cursor} {token : Token} {n : Nat}
    (h : next? value depth c = some (token, n)) : c.rest ≠ [] := by
  rintro hnil
  cases value <;> simp [next?, valueToken?, operatorToken?, hnil] at h

/-! ### What a token says about the text -/

theorem operand_cases (x : Char) (c : Cursor) :
    (∃ a column, (operand x c).1 = .atom a column) ∨ ∃ problem, (operand x c).1 = .bad problem := by
  have hliteral (marks : Nat) (result : Except Fault (Value × Nat)) :
      (∃ a column, (ofLiteral c marks result).1 = .atom a column) ∨
        ∃ problem, (ofLiteral c marks result).1 = .bad problem := by
    unfold ofLiteral
    split
    · exact Or.inr ⟨_, rfl⟩
    · exact Or.inl ⟨_, _, rfl⟩
  unfold operand
  dsimp only
  split_ifs
  · exact hliteral _ _
  · exact hliteral _ _
  · exact hliteral _ _
  · exact Or.inl ⟨_, _, rfl⟩
  · exact hliteral _ _
  · exact hliteral _ _
  · unfold ofName
    split_ifs
    · exact Or.inl ⟨_, _, rfl⟩
    · exact Or.inl ⟨_, _, rfl⟩
  · exact Or.inr ⟨_, rfl⟩

/-- An atom stands where it is read, and a symbol is spelled there. -/
theorem place_of_atom {c : Cursor} {a : Atom} {column n : Nat} (h : valueToken? c = some (.atom a column, n)) :
    column = c.column ∧ ∀ name, a = .name name → c.atName = true ∧ name = c.name.1 := by
  have hliteral {marks : Nat} {result : Except Fault (Value × Nat)} (h : ofLiteral c marks result = (.atom a column, n)) :
      column = c.column ∧ ∀ name, a = .name name → c.atName = true ∧ name = c.name.1 := by
    unfold ofLiteral at h
    split at h
    · cases h
    · cases h
      exact ⟨rfl, fun _ h => by cases h⟩
  unfold valueToken? at h
  split at h
  · cases h
  · rename_i x cs hcs
    split at h
    · cases h
    · split at h
      · cases h
      · cases h
      · split at h
        · cases h
        · replace h := Option.some.inj h
          unfold operand at h
          dsimp only at h
          split_ifs at h with h1 h2 h3 h4 h5 h6 h7
          · exact hliteral h
          · exact hliteral h
          · exact hliteral h
          · cases h
            exact ⟨rfl, fun _ h => by cases h⟩
          · exact hliteral h
          · exact hliteral h
          · unfold ofName at h
            split_ifs at h
            · cases h
              exact ⟨rfl, fun _ h => by cases h⟩
            · cases h
              refine ⟨rfl, fun name h => ?_⟩
              cases h
              refine ⟨?_, rfl⟩
              rw [Cursor.atName, hcs]
              exact h7
          · cases h

theorem valueToken?_cases {c : Cursor} {token : Token} {n : Nat} (h : valueToken? c = some (token, n)) :
    (token = .opening c.column ∧ n = 1 ∧ c.peek = some '(') ∨
    (∃ op, token = .unary op c.column ∧ n = 1 ∧ c.peek = some (UnaryOp.sign op)) ∨
    (∃ f, token = .call f c.column ∧ n = f.name.length + 1 ∧ Function.find? c.rest = some f) ∨
    (∃ a column, token = .atom a column) ∨ ∃ problem, token = .bad problem := by
  unfold valueToken? at h
  split at h
  · cases h
  · rename_i x cs hcs
    have hpeek : c.peek = some x := by rw [Cursor.peek, hcs]; rfl
    split at h
    · rename_i hx
      cases h
      exact Or.inl ⟨rfl, rfl, by rw [hpeek, beq_iff_eq.mp hx]⟩
    · split at h
      · rename_i op hop
        cases h
        exact Or.inr (Or.inl ⟨op, rfl, rfl, by rw [hpeek, UnaryOp.sign_of_ofSign? hop]⟩)
      · rename_i f _ hf
        cases h
        exact Or.inr (Or.inr (Or.inl ⟨f, rfl, rfl, hf⟩))
      · split at h
        · cases h
        · have hoperand := Option.some.inj h
          rcases operand_cases x c with ha | hb
          · rw [hoperand] at ha
            exact Or.inr (Or.inr (Or.inr (Or.inl ha)))
          · rw [hoperand] at hb
            exact Or.inr (Or.inr (Or.inr (Or.inr hb)))

theorem valueToken?_opening {c : Cursor} (h : c.peek = some '(') :
    valueToken? c = some (.opening c.column, 1) := by
  obtain ⟨cs, hcs⟩ := List.head?_eq_some_iff.mp h
  unfold valueToken?
  rw [hcs]
  rfl

theorem valueToken?_unary {c : Cursor} {op : UnaryOp} (h : c.peek = some op.sign) :
    valueToken? c = some (.unary op c.column, 1) := by
  obtain ⟨cs, hcs⟩ := List.head?_eq_some_iff.mp h
  unfold valueToken?
  rw [hcs]
  cases op <;> rfl

theorem valueToken?_call {c : Cursor} {f : Function} (h : Function.find? c.rest = some f) :
    valueToken? c = some (.call f c.column, f.name.length + 1) := by
  obtain ⟨x, cs, hcs, hx⟩ := Function.exists_isUpper_of_find? h
  have hopening : ¬ (x == '(') = true := by
    rintro hx'
    rw [beq_iff_eq.mp hx'] at hx
    exact absurd hx (by decide)
  have hsign : UnaryOp.ofSign? x = none := by
    unfold UnaryOp.ofSign?
    split <;> first | rfl | exact absurd hx (by decide)
  unfold valueToken?
  rw [h, hcs]
  simp only [hopening, hsign]
  rfl

theorem operatorToken?_closing {c : Cursor} (depth : Nat) (h : c.peek = some ')') :
    operatorToken? (depth + 1) c = some (.closing c.column, 1) := by
  obtain ⟨cs, hcs⟩ := List.head?_eq_some_iff.mp h
  unfold operatorToken?
  rw [hcs]
  rfl

theorem operatorToken?_comma {c : Cursor} (depth : Nat) (h : c.peek = some ',') :
    operatorToken? (depth + 1) c = some (.comma c.column, 1) := by
  obtain ⟨cs, hcs⟩ := List.head?_eq_some_iff.mp h
  unfold operatorToken?
  rw [hcs]
  rfl

theorem operatorToken?_binary {depth : Nat} {c : Cursor} {spelling : String} {op : BinaryOp}
    (h : BinaryOp.find? c.rest = some (spelling, op)) :
    operatorToken? depth c = some (.binary op spelling c.column, spelling.length) := by
  obtain ⟨x, cs, hcs, hclosing, hcomma⟩ := BinaryOp.exists_ne_of_find? h
  unfold operatorToken?
  rw [h, hcs]
  simp only [beq_iff_eq, hclosing, hcomma]
  rfl

theorem operatorToken?_cases {depth : Nat} {c : Cursor} {token : Token} {n : Nat}
    (h : operatorToken? depth c = some (token, n)) :
    (token = .closing c.column ∧ n = 1 ∧ c.peek = some ')') ∨
    (token = .comma c.column ∧ n = 1 ∧ c.peek = some ',') ∨
    ∃ spelling op, token = .binary op spelling c.column ∧ n = spelling.length ∧
      BinaryOp.find? c.rest = some (spelling, op) := by
  unfold operatorToken? at h
  split at h
  · cases h
  · rename_i x cs hcs
    have hpeek : c.peek = some x := by rw [Cursor.peek, hcs]; rfl
    split_ifs at h with h1 h2 h3
    · cases h
      exact Or.inl ⟨rfl, rfl, by rw [hpeek, beq_iff_eq.mp h1]⟩
    · cases h
      exact Or.inr (Or.inl ⟨rfl, rfl, by rw [hpeek, beq_iff_eq.mp h3]⟩)
    · obtain ⟨⟨spelling, op⟩, hfind, hop⟩ := Option.map_eq_some_iff.mp h
      cases hop
      exact Or.inr (Or.inr ⟨spelling, op, rfl, rfl, hfind⟩)

theorem operatorToken?_zero {c : Cursor} (h : BinaryOp.find? c.rest = none) :
    operatorToken? 0 c = none := by
  unfold operatorToken?
  split
  · rfl
  · simp [h]

/-- What is left after a token is shorter. -/
theorem length_skip_lt (value : Bool) (depth : Nat) {c : Cursor} {token : Token} {n : Nat}
    (h : next? value depth c.skipBlanks = some (token, n)) (hbad : ∀ problem, token ≠ .bad problem) :
    (c.skipBlanks.skip n).rest.length < c.rest.length := by
  obtain ⟨x, cs, hcs⟩ := List.exists_cons_of_ne_nil (rest_ne_nil_of_next? h)
  exact Cursor.length_skipBlanks_skip_lt (by rw [Cursor.peek, hcs]; rfl) (pos_of_next? h hbad)

/-! ### The scanner without its count -/

theorem scanFrom_none {value : Bool} {depth : Nat} {c : Cursor}
    (h : next? value depth c.skipBlanks = none) : ∀ steps, scanFrom steps value depth c = ([], c.skipBlanks)
  | 0 => rfl
  | _ + 1 => by simp only [scanFrom, h]

theorem scanFrom_bad {value : Bool} {depth : Nat} {c : Cursor} {problem : Problem} {n : Nat}
    (h : next? value depth c.skipBlanks = some (.bad problem, n)) (steps : Nat) :
    scanFrom (steps + 1) value depth c = ([.bad problem], c.skipBlanks) := by
  simp only [scanFrom, h]

theorem scanFrom_cons {value : Bool} {depth : Nat} {c : Cursor} {token : Token} {n : Nat}
    (h : next? value depth c.skipBlanks = some (token, n)) (hbad : ∀ problem, token ≠ .bad problem)
    (steps : Nat) :
    scanFrom (steps + 1) value depth c =
      (token :: (scanFrom steps token.expectsValue (token.depthAfter depth) (c.skipBlanks.skip n)).1,
        (scanFrom steps token.expectsValue (token.depthAfter depth) (c.skipBlanks.skip n)).2) := by
  cases token with
  | bad problem => exact absurd rfl (hbad problem)
  | _ => simp only [scanFrom, h]

/-- Steps beyond the length of the rest change nothing. -/
theorem scanFrom_eq_of_le : ∀ (steps : Nat) (value : Bool) (depth : Nat) (c : Cursor),
    c.rest.length ≤ steps → scanFrom steps value depth c = scanFrom c.rest.length value depth c := by
  intro steps
  induction steps using Nat.strong_induction_on with
  | _ steps ih =>
  intro value depth c hle
  cases h : next? value depth c.skipBlanks with
  | none => rw [scanFrom_none h, scanFrom_none h]
  | some pair =>
    obtain ⟨token, n⟩ := pair
    have hpos : 0 < c.rest.length := by
      have hne := List.length_pos_iff.mpr (rest_ne_nil_of_next? h)
      have := c.length_skipBlanks_le
      omega
    obtain ⟨steps, rfl⟩ := Nat.exists_eq_succ_of_ne_zero (by omega : steps ≠ 0)
    obtain ⟨length, hlength⟩ := Nat.exists_eq_succ_of_ne_zero (by omega : c.rest.length ≠ 0)
    by_cases hbad : ∃ problem, token = .bad problem
    · obtain ⟨problem, rfl⟩ := hbad
      rw [hlength, scanFrom_bad h, scanFrom_bad h]
    · have hbad : ∀ problem, token ≠ .bad problem := fun problem hp => hbad ⟨problem, hp⟩
      have hlt := length_skip_lt value depth h hbad
      rw [hlength, scanFrom_cons h hbad, scanFrom_cons h hbad, ih steps (by omega) _ _ _ (by omega),
        ih length (by omega) _ _ _ (by omega)]

/-- The tokens from a place on, where `value` says whether a value is expected,
and the place where they end. -/
def allFrom (value : Bool) (depth : Nat) (c : Cursor) : List Token × Cursor :=
  scanFrom c.rest.length value depth c

theorem allFrom_none {value : Bool} {depth : Nat} {c : Cursor}
    (h : next? value depth c.skipBlanks = none) : allFrom value depth c = ([], c.skipBlanks) :=
  scanFrom_none h _

theorem allFrom_bad {value : Bool} {depth : Nat} {c : Cursor} {problem : Problem} {n : Nat}
    (h : next? value depth c.skipBlanks = some (.bad problem, n)) :
    allFrom value depth c = ([.bad problem], c.skipBlanks) := by
  rw [allFrom, ← scanFrom_eq_of_le (c.rest.length + 1) _ _ _ (Nat.le_succ _), scanFrom_bad h]

theorem allFrom_cons {value : Bool} {depth : Nat} {c : Cursor} {token : Token} {n : Nat}
    (h : next? value depth c.skipBlanks = some (token, n)) (hbad : ∀ problem, token ≠ .bad problem) :
    allFrom value depth c =
      (token :: (allFrom token.expectsValue (token.depthAfter depth) (c.skipBlanks.skip n)).1,
        (allFrom token.expectsValue (token.depthAfter depth) (c.skipBlanks.skip n)).2) := by
  have hlt := length_skip_lt value depth h hbad
  rw [allFrom, ← scanFrom_eq_of_le (c.rest.length + 1) _ _ _ (Nat.le_succ _), scanFrom_cons h hbad,
    scanFrom_eq_of_le c.rest.length _ _ _ (by omega)]
  rfl

end Token
end Asm6502
