/-
# How far a skipped expression goes

What skips a statement passes over an expression as a whole: the signs that end
a statement stand in it only in quotes, and its brackets are balanced. So a
statement that is skipped goes on where the expression ends, and with it all that
an expression is a part of.

Key theorems: `Token.spans_of_atom`, `Expr.Derives.spans`, `Expr.spans_of_evaluate`.
-/
import Asm6502.Proofs.Expr.Grammar
import Asm6502.Proofs.Text.Span

namespace Asm6502

/-! ### Literals -/

theorem isNameChar_of_isDigit {x : Char} (h : x.isDigit = true) : isNameChar x = true := by
  rw [isNameChar, Char.isAlphanum, h, Bool.or_true]
  rfl

theorem Number.isNameChar_of_digit? {base d : Nat} {x : Char} (h : Number.digit? base x = some d) :
    isNameChar x = true := by
  obtain ⟨hd, -⟩ := Option.filter_eq_some_iff.mp h
  split_ifs at hd with hdigit hlower hupper
  · exact isNameChar_of_isDigit hdigit
  · obtain ⟨hmin, hmax⟩ : 97 ≤ x.val.toNat ∧ x.val.toNat ≤ 102 := hlower
    have hle : 97 ≤ x.val.toNat ∧ x.val.toNat ≤ 122 := by omega
    refine isNameChar_of_letter (Or.inr (Bool.and_eq_true_iff.mpr ⟨?_, ?_⟩))
    · exact decide_eq_true hle.1
    · exact decide_eq_true hle.2
  · obtain ⟨hmin, hmax⟩ : 65 ≤ x.val.toNat ∧ x.val.toNat ≤ 70 := hupper
    have hle : 65 ≤ x.val.toNat ∧ x.val.toNat ≤ 90 := by omega
    exact isNameChar_of_letter (Or.inl (decide_eq_true hle))

namespace Literal

theorem isNameChar_of_mem_digitsAfter {base : Nat} {cs : List Char} {x : Char}
    (h : x ∈ cs.take (digitsAfter base cs).2) : isNameChar x = true := by
  fun_induction digitsAfter base cs with
  | case1 => cases h
  | case2 => cases h
  | case3 => cases h
  | case4 c rest d hd ds n hrest ih =>
    rw [hrest] at ih
    rcases List.mem_cons.mp h with rfl | h
    · rfl
    rcases List.mem_cons.mp h with rfl | h
    · exact Number.isNameChar_of_digit? hd
    · exact ih h
  | case5 => cases h
  | case6 c cs _ d hd ds n hrest ih =>
    rw [hrest] at ih
    rcases List.mem_cons.mp h with rfl | h
    · exact Number.isNameChar_of_digit? hd
    · exact ih h

theorem isNameChar_of_mem_radix {base limit n : Nat} {bad : Fault} {cs : List Char} {value : Value}
    (h : radix base limit bad cs = .ok (value, n)) {x : Char} (hx : x ∈ cs.take n) : isNameChar x = true := by
  unfold radix digits at h
  by_cases hfirst : (cs.head? == some '_') = true
  · rw [if_pos hfirst] at h
    cases h
  · rw [if_neg hfirst] at h
    dsimp only at h
    split_ifs at h
    obtain ⟨-, rfl⟩ := Prod.mk.inj (Except.ok.inj h)
    exact isNameChar_of_mem_digitsAfter hx

/-- An exponent has a mark, a sign and digits. -/
theorem leadingExponent_spec (cs : List Char) :
    Number.leadingExponent cs <+: cs ∧ ∀ x ∈ Number.leadingExponent cs, isOrdinary x = true := by
  have hdigits (ds : List Char) : ∀ x ∈ ds.takeWhile Char.isDigit, isOrdinary x = true := fun x hx =>
    isOrdinary_of_isNameChar (isNameChar_of_isDigit (List.mem_takeWhile_imp hx))
  have hnone (cs : List Char) : [] <+: cs ∧ ∀ x ∈ ([] : List Char), isOrdinary x = true :=
    ⟨List.nil_prefix, fun x hx => by cases hx⟩
  unfold Number.leadingExponent
  split
  · rename_i mark rest
    split_ifs with hmark
    · have hmark : isOrdinary mark = true := by
        rcases (by simpa using hmark : mark = 'e' ∨ mark = 'E') with rfl | rfl <;> rfl
      dsimp only
      split
      all_goals
        split_ifs
        · exact hnone _
        · refine ⟨?_, ?_⟩
          · simp [List.takeWhile_prefix]
          · simp only [List.cons_append, List.nil_append, List.forall_mem_cons]
            first
            | exact ⟨hmark, rfl, hdigits _⟩
            | exact ⟨hmark, hdigits _⟩
    · exact hnone _
  · exact hnone _

/-- The characters of a decimal number. -/
theorem leadingDecimal_spec {isPart : Char → Bool} (hpart : ∀ x, isPart x = true → isOrdinary x = true)
    (cs : List Char) :
    Number.leadingDecimal isPart cs <+: cs ∧ ∀ x ∈ Number.leadingDecimal isPart cs, isOrdinary x = true := by
  have hparts (ds : List Char) : ∀ x ∈ ds.takeWhile isPart, isOrdinary x = true := fun x hx =>
    hpart x (List.mem_takeWhile_imp hx)
  unfold Number.leadingDecimal
  dsimp only
  split
  · rename_i ds hrest
    obtain ⟨hexponent, hordinary⟩ := leadingExponent_spec (ds.dropWhile isPart)
    constructor
    · calc cs.takeWhile isPart ++ '.' :: ds.takeWhile isPart ++ Number.leadingExponent (ds.dropWhile isPart)
          <+: cs.takeWhile isPart ++ '.' :: ds.takeWhile isPart ++ ds.dropWhile isPart := by
            rwa [List.prefix_append_right_inj]
        _ = cs := by
            rw [List.append_assoc, List.cons_append, List.takeWhile_append_dropWhile, ← hrest,
              List.takeWhile_append_dropWhile]
    · intro x hx
      simp only [List.mem_append, List.mem_cons] at hx
      rcases hx with (hx | rfl | hx) | hx
      · exact hparts _ x hx
      · rfl
      · exact hparts _ x hx
      · exact hordinary x hx
  · obtain ⟨hexponent, hordinary⟩ := leadingExponent_spec (cs.dropWhile isPart)
    constructor
    · calc cs.takeWhile isPart ++ Number.leadingExponent (cs.dropWhile isPart)
          <+: cs.takeWhile isPart ++ cs.dropWhile isPart := by rwa [List.prefix_append_right_inj]
        _ = cs := List.takeWhile_append_dropWhile
    · intro x hx
      rcases List.mem_append.mp hx with hx | hx
      · exact hparts _ x hx
      · exact hordinary x hx

theorem isOrdinary_of_mem_decimal {cs : List Char} {value : Value} {n : Nat}
    (h : decimal cs = .ok (value, n)) {x : Char} (hx : x ∈ cs.take n) : isOrdinary x = true := by
  have hpart (x : Char) (hx : (x.isDigit || x == '_') = true) : isOrdinary x = true := by
    rcases Bool.or_eq_true_iff.mp hx with hx | hx
    · exact isOrdinary_of_isNameChar (isNameChar_of_isDigit hx)
    · rw [beq_iff_eq.mp hx]
      rfl
  obtain ⟨hleading, hordinary⟩ := leadingDecimal_spec hpart cs
  unfold decimal at h
  dsimp only at h
  split at h
  · cases h
  · split_ifs at h
    obtain ⟨-, rfl⟩ := Prod.mk.inj (Except.ok.inj h)
    rw [← List.prefix_iff_eq_take.mp hleading] at hx
    exact hordinary x hx

/-- A doubled quote ends the text and starts it again. -/
theorem statementLength_of_quoted {cs text : List Char} {n : Nat} (h : quoted cs = some (text, n)) (depth : Nat) :
    statementLength true depth cs = n + statementLength false depth (cs.drop n) := by
  fun_induction quoted cs generalizing text n with
  | case1 => cases h
  | case2 rest ih =>
    obtain ⟨⟨text', n'⟩, hrest, heq⟩ := Option.map_eq_some_iff.mp h
    obtain ⟨-, rfl⟩ := Prod.mk.inj heq
    have hreopened : statementLength false depth ('"' :: rest) = statementLength true depth rest + 1 := by
      rw [statementLength.eq_def]
      simp
    rw [statementLength.eq_def]
    simp only [if_true, bne_self_eq_false, hreopened, ih hrest, List.drop_succ_cons]
    omega
  | case3 cs hne =>
    obtain ⟨-, rfl⟩ := Prod.mk.inj (Option.some.inj h)
    rw [statementLength.eq_def]
    simp [Nat.add_comm]
  | case4 c cs hne ih =>
    obtain ⟨⟨text', n'⟩, hrest, heq⟩ := Option.map_eq_some_iff.mp h
    obtain ⟨-, rfl⟩ := Prod.mk.inj heq
    have hquote : (c != '"') = true := by simpa using hne
    rw [statementLength.eq_def]
    simp only [if_true, hquote, ih hrest, List.drop_succ_cons]
    omega

end Literal

namespace Token

open Cursor

theorem eq_of_ofLiteral {c : Cursor} {marks : Nat} {result : Except Fault (Value × Nat)} {a : Atom}
    {column n : Nat} (h : ofLiteral c marks result = (.atom a column, n)) :
    ∃ value k, result = .ok (value, k) ∧ n = marks + k := by
  unfold ofLiteral at h
  split at h
  · cases h
  · rename_i value k
    exact ⟨value, k, rfl, (Prod.mk.inj h).2.symm⟩

/-- A literal behind a sign. -/
theorem spans_of_marked {c : Cursor} {x : Char} {cs : List Char} {n : Nat} (hrest : c.rest = x :: cs)
    (hx : isOrdinary x = true) (h : ∀ y ∈ cs.take n, isNameChar y = true) : c.Spans (c.skip (1 + n)) := by
  refine spans_skip fun y hy => ?_
  rw [hrest, Nat.add_comm, List.take_succ_cons] at hy
  rcases List.mem_cons.mp hy with rfl | hy
  · exact hx
  · exact isOrdinary_of_isNameChar (h y hy)

theorem spans_of_ofName (c : Cursor) : c.Spans (c.skip (ofName c).2) := by
  unfold ofName
  split_ifs with htime
  · exact spans_startsWith rfl htime
  · exact c.spans_name

/-- An operand that stands for itself is spanned. -/
theorem spans_of_atom {c : Cursor} {a : Atom} {column n : Nat} (h : valueToken? c = some (.atom a column, n)) :
    c.Spans (c.skip n) := by
  unfold valueToken? at h
  split at h
  · cases h
  rename_i x cs hrest
  split at h
  · cases h
  split at h
  · cases h
  · cases h
  split_ifs at h
  have h := Option.some.inj h
  unfold operand at h
  rw [hrest] at h
  dsimp only [List.tail_cons] at h
  split_ifs at h with hdecimal hhex hbinary hcounter hcharacter hstring hname
  · obtain ⟨value, k, hk, rfl⟩ := eq_of_ofLiteral h
    rw [Nat.zero_add]
    exact spans_skip fun y hy => Literal.isOrdinary_of_mem_decimal hk (hrest ▸ hy)
  · obtain ⟨value, k, hk, rfl⟩ := eq_of_ofLiteral h
    have hx : isOrdinary x = true := by
      rcases (by simpa using hhex : x = '&' ∨ x = '$') with rfl | rfl <;> rfl
    exact spans_of_marked hrest hx fun y hy => Literal.isNameChar_of_mem_radix hk hy
  · obtain ⟨value, k, hk, rfl⟩ := eq_of_ofLiteral h
    obtain rfl : x = '%' := by simpa using hbinary
    exact spans_of_marked hrest rfl fun y hy => Literal.isNameChar_of_mem_radix hk hy
  · obtain ⟨-, rfl⟩ := Prod.mk.inj h
    obtain rfl : x = '*' := by simpa using hcounter
    exact spans_skip_one (by rw [peek, hrest]; rfl) rfl
  · obtain ⟨value, k, hk, rfl⟩ := eq_of_ofLiteral h
    obtain rfl : x = '\'' := by simpa using hcharacter
    unfold Literal.character at hk
    split at hk
    · split_ifs at hk with hsize
      cases hk
      exact spans_character hrest hsize
    · cases hk
  · obtain ⟨value, k, hk, rfl⟩ := eq_of_ofLiteral h
    obtain rfl : x = '"' := by simpa using hstring
    unfold Literal.string at hk
    split at hk
    · cases hk
    · rename_i text k' hquoted
      cases hk
      refine ⟨1 + k, rfl, fun depth => ?_⟩
      have hafter : (c.skip (1 + k)).rest = cs.drop k := by
        rw [Nat.add_comm, skip, hrest]
        rfl
      rw [hafter, hrest, statementLength.eq_def]
      simp only [Bool.false_eq_true, if_false, beq_self_eq_true, if_true,
        Literal.statementLength_of_quoted hquoted]
      omega
  · have hspans := spans_of_ofName c
    rw [h] at hspans
    exact hspans
  · cases h

end Token

theorem UnaryOp.isOrdinary_sign (op : UnaryOp) : isOrdinary op.sign = true := by cases op <;> rfl

theorem BinaryOp.spans_of_find? {c : Cursor} {spelling : String} {op : BinaryOp}
    (h : BinaryOp.find? c.rest = some (spelling, op)) : c.Spans (c.skip spelling.length) := by
  have hall : ∀ p ∈ BinaryOp.spellings, p.1.toList.all isOrdinary = true := by decide
  have hspelled := List.find?_some h
  simp only [BinaryOp.spelledAt, Bool.and_eq_true] at hspelled
  rw [← String.length_toList]
  exact Cursor.spans_startsWith (hall _ (List.mem_of_find?_eq_some h)) hspelled.1

theorem startsWith_append {xs ys cs : List Char} (h : startsWith (xs ++ ys) cs = true) :
    startsWith xs cs = true ∧ startsWith ys (cs.drop xs.length) = true := by
  simp only [startsWith, List.length_append, List.take_add, List.map_append, beq_iff_eq] at h ⊢
  have hlength : ((cs.take xs.length).map Char.toUpper).length = xs.length := by
    have hle := congrArg List.length h
    simp only [List.length_append, List.length_map, List.length_take, List.length_drop] at hle ⊢
    omega
  exact List.append_inj h hlength

/-- The name of a function is spanned, and a bracket follows it. -/
theorem Function.spans_of_find? {c : Cursor} {f : Function} (h : Function.find? c.rest = some f) :
    ∃ d, c.Spans d ∧ d.Passes ['('] (c.skip (f.name.length + 1)) := by
  have hall : ∀ e ∈ Function.table, e.1.name = e.2.1 ∧ e.2.1.toList.all isOrdinary = true := by decide
  obtain ⟨e, hfind, rfl⟩ := Option.map_eq_some_iff.mp h
  obtain ⟨hname, hordinary⟩ := hall e (List.mem_of_find?_eq_some hfind)
  have hspelled : startsWith (e.2.1.toList ++ ['(']) c.rest = true := by
    have hsome := List.find?_some hfind
    exact hsome
  obtain ⟨hstarts, hbracket⟩ := startsWith_append hspelled
  refine ⟨c.skip e.2.1.toList.length, Cursor.spans_startsWith hordinary hstarts, ?_⟩
  rw [hname, ← String.length_toList, ← Cursor.skip_skip]
  refine Cursor.passes_of_peek ?_ rfl
  have hhead : ['('].head?.any (· == '(') = true := rfl
  obtain ⟨x, xs, hrest, hx⟩ := exists_cons_of_startsWith hhead hbracket
  rw [Cursor.peek, Cursor.skip, hrest]
  rcases toUpper_cases x with ⟨-, hupper⟩ | hsame
  · rw [beq_iff_eq.mp hx] at hupper
    exact absurd hupper (by decide)
  · rw [hsame] at hx
    rw [beq_iff_eq.mp hx]
    rfl

namespace Expr

/-- A phrase is spanned. -/
theorem Derives.spans {ctx : Context} {allowance : Nat} {phrase : Phrase} {c d : Cursor} {s t : State}
    {args : List Operand} {known : Bool} (h : Derives ctx allowance phrase c s args known d t) : c.Spans d := by
  induction h with
  | atom htoken _ => exact (Cursor.spans_skipBlanks _).trans (Token.spans_of_atom htoken)
  | signed hpass _ _ ih =>
    refine (hpass.spans ?_).trans ih
    rw [List.all_cons, UnaryOp.isOrdinary_sign]
    rfl
  | bracketed hopen _ hclose ih => exact ih.bracketed hopen hclose
  | call _ hfind _ hclose _ ih =>
    obtain ⟨d, hname, hopen⟩ := Function.spans_of_find? hfind
    exact ((Cursor.spans_skipBlanks _).trans hname).trans (ih.bracketed hopen hclose)
  | eval hfind _ hclose _ _ _ ih _ =>
    obtain ⟨d, hname, hopen⟩ := Function.spans_of_find? hfind
    exact ((Cursor.spans_skipBlanks _).trans hname).trans (ih.bracketed hopen hclose)
  | tighter _ ih => exact ih
  | binary _ hfind _ _ _ ihleft ihright =>
    exact (ihleft.trans (Cursor.spans_skipBlanks _)).trans ((BinaryOp.spans_of_find? hfind).trans ihright)
  | last _ ih => exact ih
  | more _ hcomma _ ih ihmore => exact ih.trans ((hcomma.spans rfl).trans ihmore)

/-- An expression that has a value is spanned. -/
theorem spans_of_evaluate {ctx : Context} {allowance : Nat} {c : Cursor} {s t : State} {e : Evaluated}
    (h : evaluate ctx allowance c s = .ok e t) : c.Spans e.stop := by
  rw [evaluate, evaluateWith_ok_iff] at h
  obtain ⟨o, hfinish, -, -⟩ := h
  obtain ⟨d, hd, -, -, hstop⟩ := exists_derives_of_finish (textsParse ctx allowance) hfinish
  rw [hstop]
  exact (c.spans_skipBlanks.trans hd.spans).trans d.spans_skipBlanks

end Expr
end Asm6502
