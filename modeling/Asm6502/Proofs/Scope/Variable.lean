/-
# The variable of a loop

The variable of a loop has one value in each execution of the body: the first is
given, and each later one is the value before plus the step. The values are sums
of floating-point numbers, so no multiple of the step stands for them.

While the loop is open, its variable is bound by a symbol that belongs to the
scope of the loop. Nothing gives that symbol another value if it has no place of
definition. With one, an assignment at this very place does.

Key definitions: `Loop.valueAt`, `Loop.endsAfter`, `Moment.HasVariable`.
Key theorems: `Loop.next?_turn`, `get?_bindVariable_self`,
`Moment.HasVariable.reaches`.
-/
import Asm6502.Proofs.Scope.Moment

namespace Asm6502

/-! ### Values of the variable -/

namespace Loop

/-- The value of the variable in the `k`-th execution of the body. -/
def valueAt (l : Loop) : Nat → Float
  | 0 => l.current
  | k + 1 => l.valueAt k + l.step

/-- Whether the `k`-th execution of the body is the last one. -/
def endsAfter (l : Loop) (k : Nat) : Prop :=
  if l.step > 0 then l.valueAt (k + 1) > l.limit else l.valueAt (k + 1) < l.limit

instance (l : Loop) (k : Nat) : Decidable (l.endsAfter k) :=
  inferInstanceAs (Decidable (if l.step > 0 then _ else _))

/-- The loop in the `k`-th execution of its body. -/
def turn (l : Loop) (k : Nat) : Loop := { l with current := l.valueAt k }

theorem next?_turn (l : Loop) (k : Nat) :
    (l.turn k).next? = if l.endsAfter k then none else some (l.turn (k + 1)) := by
  unfold next? endsAfter
  by_cases hstep : l.step > 0
  · simp only [turn, hstep, if_true]
    rfl
  · simp only [turn, hstep, if_false]
    rfl

end Loop

/-! ### The symbol of the variable -/

/-- The symbol of a variable that has just been bound. -/
theorem get?_bindVariable_self (t : SymbolTable) (frames : List Frame) (l : Loop) :
    ∃ symbol, (Walk.bindVariable t frames l).get? (fullName l.name frames) = some symbol ∧
      symbol.value = .num l.current ∧
      symbol.definedAt = (t.get? (fullName l.name frames)).bind Symbol.definedAt := by
  unfold Walk.bindVariable
  dsimp only
  cases hadd : t.add? (fullName l.name frames) (.num l.current) false none with
  | none =>
    obtain ⟨symbol, hsymbol⟩ := Option.isSome_iff_exists.mp (SymbolTable.add?_eq_none_iff.mp hadd)
    refine ⟨{ symbol with value := .num l.current }, ?_, rfl, ?_⟩
    · rw [Option.getD_none, SymbolTable.get?_change, if_pos rfl, hsymbol]
      rfl
    · rw [hsymbol]
      rfl
  | some symbols =>
    obtain ⟨hnone, hsymbols⟩ := SymbolTable.get?_add? hadd (fullName l.name frames)
    refine ⟨_, by rw [Option.getD_some, hsymbols, if_pos rfl], rfl, ?_⟩
    rw [hnone]
    rfl

namespace Moment

/-- Whether the variable of a loop is bound to its value, by a symbol without a
place of definition. -/
def HasVariable (l : Loop) (frames : List Frame) (m : Moment) : Prop :=
  ∃ symbol, m.run.symbols.get? (fullName l.name frames) = some symbol ∧ symbol.value = .num l.current ∧
    symbol.definedAt = none

variable {m m' : Moment} {f : Frame} {outer : List Frame} {l : Loop}

theorem HasVariable.value {frames : List Frame} (h : m.HasVariable l frames) :
    m.run.symbols.value? (fullName l.name frames) = some (.num l.current) := by
  obtain ⟨symbol, hget, hvalue, -⟩ := h
  rw [SymbolTable.value?, hget, Option.map_some, hvalue]

/-- While a loop is open, changes of symbols leave its variable alone. -/
theorem HasVariable.changes {frames : List Frame} {r : Run} {symbols : SymbolTable}
    (hformed : (⟨frames, r⟩ : Moment).IsFormed) (hopen : f :: outer <:+ frames) (hkind : f.kind = .loop l)
    (h : HasVariable l (f :: outer) ⟨frames, r⟩) (hchanges : Changes frames r symbols) :
    HasVariable l (f :: outer) ⟨frames, { r with symbols }⟩ := by
  have hf : f ∈ frames := hopen.subset List.mem_cons_self
  have hname : IsPlain l.name := hformed.loops f hf l hkind
  obtain ⟨symbol, hget, hvalue, hplace⟩ := h
  have hget : r.symbols.get? (fullName l.name (f :: outer)) = some symbol := hget
  have hkept {symbols : SymbolTable}
      (heq : symbols.get? (fullName l.name (f :: outer)) = r.symbols.get? (fullName l.name (f :: outer))) :
      HasVariable l (f :: outer) ⟨frames, { r with symbols }⟩ := ⟨symbol, heq.trans hget, hvalue, hplace⟩
  -- a name of the innermost scope is the variable only if this scope is the loop
  have hself (g : Frame) (rest : List Frame) (hframes : frames = g :: rest) (name : String) (hplain : IsPlain name)
      (heq : fullName name frames = fullName l.name (f :: outer)) : g = f ∧ rest = outer := by
    obtain ⟨-, hstamps⟩ := (fullName_inj hplain hname).mp heq
    have hlength := congrArg List.length hstamps
    simp only [List.length_map] at hlength
    have hall : f :: outer = frames := hopen.eq_of_length hlength.symm
    rw [hframes] at hall
    obtain ⟨rfl, rfl⟩ := List.cons.inj hall
    exact ⟨rfl, rfl⟩
  have hparameter (g : Frame) (rest : List Frame) (hframes : frames = g :: rest) (hg : g.isExpansion = true)
      (name parameter : String) (m : Macro) (hm : r.macros.get? name = some m) (hmem : parameter ∈ m.parameters) :
      fullName parameter frames ≠ fullName l.name (f :: outer) := by
    intro heq
    obtain ⟨rfl, -⟩ := hself g rest hframes parameter (hformed.macros name m hm parameter hmem) heq
    rw [Frame.isExpansion, hkind] at hg
    cases hg
  cases hchanges with
  | @defined name outer' value isLabel p symbols hplain houter hadd =>
    obtain ⟨hnone, hsymbols⟩ := SymbolTable.get?_add? hadd (fullName l.name (f :: outer))
    apply hkept
    rw [hsymbols, if_neg]
    intro heq
    rw [heq, hget] at hnone
    cases hnone
  | @reassigned full other p value hother hdefined =>
    apply hkept
    rw [SymbolTable.get?_change, if_neg]
    intro heq
    rw [heq, hget] at hother
    cases hother
    rw [hplace] at hdefined
    cases hdefined
  | processor value =>
    apply hkept
    rw [SymbolTable.get?_change, if_neg]
    intro heq
    apply not_isPlain_fullName_cons l.name f outer
    rw [← heq]
    simp [IsPlain]
  | @bound g rest l' hframes hloop =>
    by_cases heq : fullName l'.name frames = fullName l.name (f :: outer)
    · have hg : g ∈ frames := by simp [hframes]
      obtain ⟨rfl, rfl⟩ := hself g rest hframes l'.name (hformed.loops g hg l' hloop) heq
      rw [hkind] at hloop
      cases hloop
      obtain ⟨symbol', hget', hvalue', hplace'⟩ := get?_bindVariable_self r.symbols frames l
      rw [heq, hget] at hplace'
      rw [heq] at hget'
      exact ⟨symbol', hget', hvalue', hplace'.trans hplace⟩
    · exact hkept (get?_bindVariable _ _ _ _ heq)
  | released hframes hg hm hmem =>
    apply hkept
    rw [SymbolTable.get?_erase, if_neg (hparameter _ _ hframes hg _ _ _ hm hmem)]
  | given value hframes hg hm hmem =>
    apply hkept
    rw [SymbolTable.get?_add, if_neg (hparameter _ _ hframes hg _ _ _ hm hmem)]

theorem HasVariable.happens (hformed : m.IsFormed) (hopen : f :: outer <:+ m.frames) (hkind : f.kind = .loop l)
    (h : m.HasVariable l (f :: outer)) (hm : Happens m m') : m'.HasVariable l (f :: outer) := by
  cases hm with
  | entered henters => cases henters <;> exact h
  | closed => exact h
  | looked hfollows =>
    obtain ⟨symbol, hget, hvalue, hplace⟩ := h
    obtain ⟨symbol', hget', hvalue', -, hplace'⟩ := hfollows.symbols.symm.exists_get? hget
    exact ⟨symbol', hget', hvalue'.trans hvalue, hplace'.trans hplace⟩
  | changed hchanges => exact h.changes hformed hopen hkind hchanges
  | aside haside =>
    obtain ⟨symbol, hget, hvalue, hplace⟩ := h
    exact ⟨symbol, by rw [haside.symbols]; exact hget, hvalue, hplace⟩

/-- The variable of a loop keeps its value as long as the loop is open, if its
symbol has no place of definition. -/
theorem HasVariable.reaches (hformed : m.IsFormed) (hopen : f :: outer <:+ m.frames) (hkind : f.kind = .loop l)
    (h : m.HasVariable l (f :: outer)) (hm : Reaches m m') (hopen' : f :: outer <:+ m'.frames) :
    m'.HasVariable l (f :: outer) := by
  -- on the way the loop is open all the time, since it would never be so again
  have hway : (f :: outer <:+ m'.frames ∧ m'.HasVariable l (f :: outer)) ∨ m'.IsPast f.id (f.count + 1) := by
    clear hopen'
    induction hm with
    | refl => exact Or.inl ⟨hopen, h⟩
    | tail hbefore hstep ih =>
      rcases ih with ⟨hopen, h⟩ | hpast
      · have hformed := hformed.reaches hbefore
        exact (suffix_happens hformed hopen hstep).imp_left fun hopen' =>
          ⟨hopen', h.happens hformed hopen hkind hstep⟩
      · exact Or.inr (hpast.reaches (.single hstep))
  exact (hway.resolve_right (not_isPast_of_suffix hopen')).2

end Moment

end Asm6502
