/-
# Hexadecimal and binary literals denote their digits

A literal is a marker and digits of its base, with single underscores between some
of them. However long it is, it is read as the number that its digits stand for, or
refused because too many digits follow the leading zeros. The number is kept to 48
bits while it is read, but one that is accepted has no more than 32.

Writing a number in hexadecimal and reading it behind the marker comes back to it.

Key definitions: `Literal.Written`, `Literal.EndsDigits`, `Literal.Marks`.
Key theorems: `Literal.digits_written`, `Literal.ofDigits_eq`,
`Literal.written_hexadecimal`, `Literal.radix_denotes_digits`.
-/
import Mathlib.Data.Nat.Digits.Lemmas
import Asm6502.Proofs.Expr.Scan

namespace Asm6502.Literal

variable {base limit : Nat} {mark : Char} {ds : List Nat} {cs rest : List Char}

/-- Digits as they may be written, with an underscore between two of them or not. -/
inductive Written (base : Nat) : List Nat → List Char → Prop
  | last {c : Char} {d : Nat} : Number.digit? base c = some d → Written base [d] [c]
  | next {c : Char} {d : Nat} {ds : List Nat} {cs : List Char} : Number.digit? base c = some d →
      Written base ds cs → Written base (d :: ds) (c :: cs)
  | separated {c : Char} {d : Nat} {ds : List Nat} {cs : List Char} : Number.digit? base c = some d →
      Written base ds cs → Written base (d :: ds) (c :: '_' :: cs)

/-- Whether no digit of a literal follows, with an underscore before it or without. -/
def EndsDigits (base : Nat) (rest : List Char) : Prop :=
  (∀ c ∈ rest.head?, Number.digit? base c = none) ∧ ∀ c cs, rest = '_' :: c :: cs → Number.digit? base c = none

/-- The markers, each with its base and the most digits after the leading zeros. -/
inductive Marks : Char → Nat → Nat → Prop
  | ampersand : Marks '&' 16 8
  | dollar : Marks '$' 16 8
  | percent : Marks '%' 2 32

theorem lt_of_digit? {c : Char} {d : Nat} (h : Number.digit? base c = some d) : d < base :=
  of_decide_eq_true (Option.filter_eq_some_iff.mp h).2

theorem ne_underscore_of_digit? {c : Char} {d : Nat} (h : Number.digit? base c = some d) : c ≠ '_' := by
  rintro rfl
  cases h

theorem digitsAfter_ends (h : EndsDigits base rest) : digitsAfter base rest = ([], 0) := by
  unfold digitsAfter
  split
  · rfl
  · split
    · rfl
    · rename_i c cs
      rw [h.2 c cs rfl]
  · rename_i c cs _
    rw [h.1 c rfl]

theorem digitsAfter_cons {c : Char} {d : Nat} (h : Number.digit? base c = some d) (cs : List Char) :
    digitsAfter base (c :: cs) = (d :: (digitsAfter base cs).1, (digitsAfter base cs).2 + 1) := by
  rw [digitsAfter]
  · rw [h]
  · exact ne_underscore_of_digit? h

theorem digitsAfter_underscore {c : Char} {d : Nat} (h : Number.digit? base c = some d) (cs : List Char) :
    digitsAfter base ('_' :: c :: cs) = (d :: (digitsAfter base cs).1, (digitsAfter base cs).2 + 2) := by
  rw [digitsAfter]
  simp only [h]

/-- An underscore before digits counts for nothing but its place. -/
theorem digitsAfter_separated (h : Written base ds cs) :
    digitsAfter base ('_' :: (cs ++ rest)) =
      ((digitsAfter base (cs ++ rest)).1, (digitsAfter base (cs ++ rest)).2 + 1) := by
  cases h with
  | last hd => rw [List.singleton_append, digitsAfter_underscore hd, digitsAfter_cons hd]
  | next hd _ => rw [List.cons_append, digitsAfter_underscore hd, digitsAfter_cons hd]
  | separated hd _ => rw [List.cons_append, digitsAfter_underscore hd, digitsAfter_cons hd]

/-- The digits of a literal are read up to its end. -/
theorem digitsAfter_written (h : Written base ds cs) (hrest : EndsDigits base rest) :
    digitsAfter base (cs ++ rest) = (ds, cs.length) := by
  induction h with
  | last hd =>
    rw [List.singleton_append, digitsAfter_cons hd, digitsAfter_ends hrest]
    rfl
  | next hd _ ih =>
    rw [List.cons_append, digitsAfter_cons hd, ih]
    rfl
  | separated hd hw ih =>
    rw [List.cons_append, List.cons_append, digitsAfter_cons hd, digitsAfter_separated hw, ih]
    rfl

theorem digits_written (h : Written base ds cs) (hrest : EndsDigits base rest) :
    digits base (cs ++ rest) = (ds, cs.length) := by
  have hhead : (cs ++ rest).head? ≠ some '_' := by
    cases h with
    | last hd | next hd _ | separated hd _ => exact fun h => ne_underscore_of_digit? hd (Option.some.inj h)
  rw [digits, if_neg (by simpa using hhead), digitsAfter_written h hrest]

/-! ### The number of the digits -/

theorem lt_of_written (h : Written base ds cs) : ∀ d ∈ ds, d < base := by
  induction h with
  | last hd =>
    intro d hmem
    rw [List.mem_singleton.mp hmem]
    exact lt_of_digit? hd
  | next hd _ ih | separated hd _ ih =>
    intro d hmem
    rcases List.mem_cons.mp hmem with rfl | hmem
    · exact lt_of_digit? hd
    · exact ih d hmem

theorem ofDigits_mod (base : Nat) (ds : List Nat) :
    ofDigits base ds = Nat.ofDigits base ds.reverse % 0x1000000000000 := by
  induction ds using List.reverseRecOn with
  | nil => rfl
  | append_singleton ds d ih =>
    rw [ofDigits, List.foldl_append, List.foldl_cons, List.foldl_nil, ← ofDigits, ih, List.reverse_append,
      List.reverse_singleton, List.singleton_append, Nat.ofDigits_cons, Nat.add_mod, Nat.mul_mod, Nat.mod_mod,
      ← Nat.mul_mod, ← Nat.add_mod, Nat.mul_comm, Nat.add_comm]

/-- Leading zeros do not count. -/
theorem ofDigits_lt (hbase : 1 < base) (h : ∀ d ∈ ds, d < base) :
    Nat.ofDigits base ds.reverse < base ^ (ds.dropWhile (· == 0)).length := by
  induction ds with
  | nil => exact Nat.one_pos
  | cons d ds ih =>
    by_cases hd : d = 0
    · rw [hd, List.reverse_cons, Nat.ofDigits_append, Nat.ofDigits_singleton, Nat.mul_zero, Nat.add_zero,
        List.dropWhile_cons_of_pos rfl]
      exact ih fun d hmem => h d (List.mem_cons_of_mem _ hmem)
    · rw [List.dropWhile_cons_of_neg (by simpa using hd), ← List.length_reverse]
      exact Nat.ofDigits_lt_base_pow_length hbase fun d hmem => h d (List.mem_reverse.mp hmem)

theorem Marks.bounds (h : Marks mark base limit) : 1 < base ∧ base ^ limit = 0x100000000 := by
  cases h with
  | ampersand | dollar | percent => decide

/-- A number that is accepted has at most 32 bits, so it is read exactly. -/
theorem ofDigits_eq (hmark : Marks mark base limit) (h : Written base ds cs)
    (hlimit : (ds.dropWhile (· == 0)).length ≤ limit) :
    Nat.ofDigits base ds.reverse < 0x100000000 ∧ ofDigits base ds = Nat.ofDigits base ds.reverse := by
  obtain ⟨hbase, hpower⟩ := hmark.bounds
  have hlt : Nat.ofDigits base ds.reverse < 0x100000000 :=
    calc
      _ < base ^ (ds.dropWhile (· == 0)).length := ofDigits_lt hbase (lt_of_written h)
      _ ≤ base ^ limit := Nat.pow_le_pow_right (by omega) hlimit
      _ = 0x100000000 := hpower
  refine ⟨hlt, ?_⟩
  rw [ofDigits_mod, Nat.mod_eq_of_lt (by omega)]

/-! ### Literals in an expression -/

/-- Where a value is expected, a marker starts a literal in its base. -/
theorem valueToken?_mark (hmark : Marks mark base limit) (column : Nat) (cs : List Char) :
    ∃ bad, Token.valueToken? ⟨column, mark :: cs⟩ =
      some (Token.ofLiteral ⟨column, mark :: cs⟩ 1 (radix base limit bad cs)) := by
  have hfunction : Function.find? (mark :: cs) = none := by
    cases hfind : Function.find? (mark :: cs) with
    | none => rfl
    | some f =>
      obtain ⟨x, xs, hxs, hupper⟩ := Function.exists_isUpper_of_find? hfind
      obtain ⟨rfl, -⟩ := List.cons.inj hxs
      cases hmark <;> cases hupper
  cases hmark with
  | ampersand => exact ⟨.badHex, by simp only [Token.valueToken?, hfunction]; rfl⟩
  | dollar => exact ⟨.badHex, by simp only [Token.valueToken?, hfunction]; rfl⟩
  | percent => exact ⟨.badBinary, by simp only [Token.valueToken?, hfunction]; rfl⟩

theorem utf8Size_of_digit? {c : Char} {d : Nat} (h : Number.digit? base c = some d) : c.utf8Size = 1 := by
  have hsmall : c ≤ '\x7f' := by
    unfold Number.digit? at h
    split_ifs at h with hdecimal hlower hupper
    · have hnine : c ≤ '9' := of_decide_eq_true (Bool.and_eq_true_iff.mp hdecimal).2
      exact Char.le_trans hnine (by decide)
    · exact Char.le_trans hlower.2 (by decide)
    · exact Char.le_trans hupper.2 (by decide)
    · cases h
  exact Char.utf8Size_eq_one_iff.mpr hsmall

/-- Digits and underscores are characters of one byte. -/
theorem byteLength_written (h : Written base ds cs) : byteLength cs = cs.length := by
  have hunderscore : '_'.utf8Size = 1 := by decide
  induction h with
  | last hd => rw [byteLength, byteLength, utf8Size_of_digit? hd, List.length_singleton]
  | next hd _ ih => rw [byteLength, ih, utf8Size_of_digit? hd, List.length_cons, Nat.add_comm]
  | separated hd _ ih =>
    rw [byteLength, byteLength, ih, utf8Size_of_digit? hd, hunderscore, List.length_cons, List.length_cons]
    omega

/-- A literal is accepted if few enough digits follow its leading zeros: it is then
the number of its digits, and what follows it is read next. -/
theorem valueToken?_written (hmark : Marks mark base limit) (h : Written base ds cs) (hrest : EndsDigits base rest)
    (column : Nat) :
    Token.valueToken? ⟨column, mark :: (cs ++ rest)⟩ =
      some (if (ds.dropWhile (· == 0)).length ≤ limit then
        (.atom (.literal (.ofNat (Nat.ofDigits base ds.reverse)) (String.ofList (mark :: cs))) column, 1 + cs.length)
      else (.bad ⟨.numberTooBig, column⟩, 0)) := by
  obtain ⟨bad, htoken⟩ := valueToken?_mark hmark column (cs ++ rest)
  have hempty : ds.isEmpty = false := by cases h <;> rfl
  rw [htoken, radix, digits_written h hrest]
  simp only [hempty, Bool.false_eq_true, if_false]
  split_ifs with hmany hfew hfew
  · omega
  · rfl
  · have htake : (mark :: (cs ++ rest)).take (1 + cs.length) = mark :: cs := by
      rw [Nat.add_comm, List.take_succ_cons, List.take_left]
    rw [(ofDigits_eq hmark h hfew).2, Token.ofLiteral, htake]
  · omega

/-! ### Numbers written in hexadecimal -/

theorem written_append (h : Written base ds cs) {c : Char} {d : Nat} (hd : Number.digit? base c = some d) :
    Written base (ds ++ [d]) (cs ++ [c]) := by
  induction h with
  | last hlast => exact .next hlast (.last hd)
  | next hnext _ ih => exact .next hnext ih
  | separated hnext _ ih => exact .separated hnext ih

theorem digit?_digitChar : ∀ d < 16, Number.digit? 16 d.digitChar.toUpper = some d := by decide

/-- A number in hexadecimal is made of its digits, and no more of them than it needs. -/
theorem written_hexadecimal (n : Nat) :
    ∃ ds, Written 16 ds (Number.hexadecimal n).toList ∧ Nat.ofDigits 16 ds.reverse = n ∧
      ∀ k, n < 16 ^ (k + 1) → ds.length ≤ k + 1 := by
  unfold Number.hexadecimal
  rw [String.toList_ofList]
  induction n using Nat.strong_induction_on with
  | _ n ih =>
    by_cases hn : n < 16
    · rw [Nat.toDigits_of_lt_base hn]
      exact ⟨[n], .last (digit?_digitChar n hn), by simp, fun k _ => by simp⟩
    · obtain ⟨ds, hwritten, hvalue, hlength⟩ := ih (n / 16) (by omega)
      have hdigit : n % 16 < 16 := Nat.mod_lt _ (by decide)
      have hsplit : Nat.toDigits 16 n = Nat.toDigits 16 (n / 16) ++ [(n % 16).digitChar] := by
        rw [← Nat.toDigits_of_lt_base hdigit, Nat.toDigits_append_toDigits (by decide) (by omega) hdigit,
          Nat.div_add_mod]
      refine ⟨ds ++ [n % 16], ?_, ?_, fun k hk => ?_⟩
      · rw [hsplit, List.map_append]
        exact written_append hwritten (digit?_digitChar _ hdigit)
      · rw [List.reverse_append, List.reverse_singleton, List.singleton_append, Nat.ofDigits_cons, hvalue,
          Nat.mod_add_div]
      · cases k with
        | zero => omega
        | succ k =>
          have hless := hlength k (by rw [Nat.pow_succ] at hk; omega)
          rw [List.length_append, List.length_singleton]
          omega

/-- A literal of any length is read as the number of its digits, below `2 ^ 32`, and
left right behind its last digit, if at most 8 or 32 digits follow the leading zeros,
and is too big otherwise. So what `STR$~` makes of a number, behind `&`, is that
number in 32 bits. -/
theorem radix_denotes_digits :
    (∀ mark base limit ds cs rest column, Marks mark base limit → Written base ds cs → EndsDigits base rest →
      ((ds.dropWhile (· == 0)).length ≤ limit →
        Nat.ofDigits base ds.reverse < 2 ^ 32 ∧
        Token.valueToken? ⟨column, mark :: (cs ++ rest)⟩ =
          some (.atom (.literal (.ofNat (Nat.ofDigits base ds.reverse)) (String.ofList (mark :: cs))) column,
            1 + cs.length) ∧
        Cursor.skip (1 + cs.length) ⟨column, mark :: (cs ++ rest)⟩ = ⟨column + (1 + cs.length), rest⟩) ∧
      (limit < (ds.dropWhile (· == 0)).length →
        Token.valueToken? ⟨column, mark :: (cs ++ rest)⟩ = some (.bad ⟨.numberTooBig, column⟩, 0))) ∧
    ∀ n : Int, let text := Number.hexadecimal (n % 2 ^ 32).toNat
      (∀ v clock r, v.integer = .ok n → Function.hexText.apply clock [v] r = .ok (.str text, r)) ∧
      ∀ rest column, EndsDigits 16 rest →
        Token.valueToken? ⟨column, '&' :: (text.toList ++ rest)⟩ =
          some (.atom (.literal (.ofNat (n % 2 ^ 32).toNat) (String.ofList ('&' :: text.toList))) column,
            1 + text.toList.length) := by
  refine ⟨fun mark base limit ds cs rest column hmark hwritten hrest => ⟨fun hfew => ?_, fun hmany => ?_⟩,
    fun n => ⟨fun v clock r hv => ?_, fun rest column hrest => ?_⟩⟩
  · refine ⟨(ofDigits_eq hmark hwritten hfew).1, ?_, ?_⟩
    · rw [valueToken?_written hmark hwritten hrest, if_pos hfew]
    · have hmarkSize : mark.utf8Size = 1 := by cases hmark <;> decide
      rw [Cursor.skip, Nat.add_comm 1, List.take_succ_cons, List.take_left, List.drop_succ_cons, List.drop_left,
        byteLength, hmarkSize, byteLength_written hwritten, Nat.add_comm 1]
  · rw [valueToken?_written hmark hwritten hrest, if_neg (Nat.not_le_of_lt hmany)]
  · have hpure : Function.hexText.pureApply v default default =
        .ok (.str (Number.hexadecimal (n % 2 ^ 32).toNat)) := by
      rw [Function.pureApply, hv]
      rfl
    rw [Function.apply]
    · exact congrArg (Except.map fun v => (v, r)) hpure
    · intro h
      cases h
    · intro h
      cases h
  · obtain ⟨ds, hwritten, hvalue, hlength⟩ := written_hexadecimal (n % 2 ^ 32).toNat
    have hfew : (ds.dropWhile (· == 0)).length ≤ 8 :=
      (List.length_dropWhile_le _ _).trans (hlength 7 (by omega))
    rw [valueToken?_written .ampersand hwritten hrest, if_pos hfew, hvalue]

/-- `%000_1` is one whatever follows on the line, nine digits are too many after `&`,
and `STR$~` writes -1 with eight. -/
theorem radix_denotes_digits_padded :
    Token.valueToken? ⟨4, "%000_1+x".toList⟩ = some (.atom (.literal (.ofNat 1) "%000_1") 4, 6) ∧
      Token.valueToken? ⟨0, "&123456789".toList⟩ = some (.bad ⟨.numberTooBig, 0⟩, 0) ∧
      Function.hexText.apply 0 [.ofInt (-1)] default = .ok (.str (Number.hexadecimal 0xFFFFFFFF), default) := by
  obtain ⟨hliteral, hhex⟩ := radix_denotes_digits
  have hzero : Number.digit? 2 '0' = some 0 := rfl
  have hone : Written 2 [0, 0, 0, 1] "000_1".toList :=
    .next hzero (.next hzero (.separated hzero (.last rfl)))
  have hnine : Written 16 [1, 2, 3, 4, 5, 6, 7, 8, 9] "123456789".toList :=
    .next rfl (.next rfl (.next rfl (.next rfl (.next rfl (.next rfl (.next rfl (.next rfl (.last rfl))))))))
  have hends : EndsDigits 2 "+x".toList := by
    refine ⟨fun c hc => ?_, fun c cs h => ?_⟩
    · obtain rfl := Option.some.inj hc
      rfl
    · cases h
  have hword : Number.toWord (Float.ofInt (-1)) = -1 := by decide +kernel
  refine ⟨((hliteral '%' 2 32 _ _ _ 4 .percent hone hends).1 (by decide)).2.1, ?_, ?_⟩
  · exact (hliteral '&' 16 8 _ _ [] 0 .ampersand hnine ⟨nofun, nofun⟩).2 (by decide)
  · exact (hhex (-1)).1 (.ofInt (-1)) 0 default (congrArg Except.ok hword)

end Asm6502.Literal
