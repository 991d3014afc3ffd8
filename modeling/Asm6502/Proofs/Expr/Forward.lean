/-
# Names that are not defined yet

In the first pass the program counter stands in for a name that is not defined,
and the value of the expression is marked as not known. A value that is known
owes nothing to such a name: the expression has it in every later pass too, as
long as the names that were found keep their values.

A value that is not known is the one that the expression has if the names that
were not found are defined as the program counter. The fault of an undefined name
is tolerated, but the number that stands in is an operand like any other, and an
operator or a function may refuse it. So the first pass gives a value exactly if
the expression has one with the program counter for these names, whatever they
are to stand for later.

An evaluation meets an undefined name if it stops at one when none is tolerated.

Key definitions: `Expr.AcrossPasses`, `Expr.MeetsUndefined`, `Expr.StandsIn`,
`Expr.Mirrors`.
Key theorems: `Expr.mirrors_take`, `Expr.mirrors_evaluate`,
`Expr.known_eq_false_iff`, `Expr.known_across_passes`,
`Expr.firstPass_stands_in`.
-/
import Asm6502.Proofs.Expr.Agreement
import Asm6502.Proofs.Expr.Faults
import Asm6502.Proofs.Scope

namespace Asm6502

/-! ### A table with names added -/

namespace SymbolTable

/-- The table with each of the names that are free added with one value. -/
def fill (t : SymbolTable) (names : List String) (value : Value) : SymbolTable :=
  names.foldl (fun t name => t.add name value false none) t

theorem get?_fill (t : SymbolTable) (names : List String) (value : Value) (other : String) :
    (t.fill names value).get? other =
      (t.get? other).or (if other ∈ names then some ⟨value, false, none, []⟩ else none) := by
  induction names generalizing t with
  | nil => simp [fill]
  | cons name names ih =>
    have hfill : t.fill (name :: names) value = (t.add name value false none).fill names value := rfl
    rw [hfill, ih, get?_add]
    by_cases hname : name = other
    · subst hname
      cases t.get? name <;> simp
    · have hmem : other ∈ name :: names ↔ other ∈ names := by
        rw [List.mem_cons, or_iff_right fun h => hname h.symm]
      simp only [hname, if_false, hmem]

theorem contains_fill (t : SymbolTable) (names : List String) (value : Value) (other : String) :
    (t.fill names value).contains other = (t.contains other || decide (other ∈ names)) := by
  rw [contains_eq_isSome, contains_eq_isSome, get?_fill, Option.isSome_or]
  by_cases h : other ∈ names <;> simp [h]

/-- Plain names that are added are seen from every scope, behind all that was
seen before. -/
theorem visibleName?_fill (t : SymbolTable) {names : List String} (hnames : ∀ name ∈ names, IsPlain name)
    (value : Value) (name : String) : ∀ frames, visibleName? (t.fill names value) name frames =
      (visibleName? t name frames).or (if name ∈ names then some name else none)
  | [] => by
    rw [visibleName?, visibleName?, contains_fill]
    cases t.contains name <;> simp
  | f :: frames => by
    have hscoped : fullName name (f :: frames) ∉ names := fun h =>
      not_isPlain_fullName_cons name f frames (hnames _ h)
    rw [visibleName?, visibleName?, contains_fill, visibleName?_fill t hnames value name frames]
    cases t.contains (fullName name (f :: frames)) <;> simp [hscoped]

theorem contains_of_visibleName? {t : SymbolTable} {name full : String} :
    ∀ {frames : List Frame}, visibleName? t name frames = some full → t.contains full = true
  | [], h => by
    unfold visibleName? at h
    split_ifs at h with hcontains
    rwa [← Option.some.inj h]
  | f :: frames, h => by
    unfold visibleName? at h
    split_ifs at h with hcontains
    · rwa [← Option.some.inj h]
    · exact contains_of_visibleName? h

theorem get?_of_visibleName?_eq_none {t : SymbolTable} {name : String} :
    ∀ {frames : List Frame}, visibleName? t name frames = none → t.get? name = none
  | [], h => by
    unfold visibleName? at h
    split_ifs at h with hcontains
    rwa [contains_eq_isSome, Option.not_isSome_iff_eq_none] at hcontains
  | f :: frames, h => by
    unfold visibleName? at h
    split_ifs at h with hcontains
    exact get?_of_visibleName?_eq_none h

end SymbolTable

namespace Expr

/-- The same place in the first pass and in a later one. -/
structure AcrossPasses (first second : Context) : Prop where
  isFirst : first.pass = .first
  isLater : second.pass ≠ .first
  pc : second.pc = first.pc
  clock : second.clock = first.clock
  frames : second.frames = first.frames

/-- Whether the scopes of a context see no symbol under a name. -/
def Context.Misses (ctx : Context) (symbols : SymbolTable) (name : String) : Prop :=
  visibleName? symbols name ctx.frames = none

/-- Symbols that have all the values of others, and the program counter wherever
they have a name that the others do not have. -/
structure StandsIn (ctx : Context) (symbols filled : SymbolTable) : Prop where
  kept : ∀ name value, ctx.Sees symbols name value → ctx.Sees filled name value
  counter : ∀ name value, ctx.Misses symbols name → ctx.Sees filled name value → value = .ofNat ctx.pc

section
variable {ctx : Context} {symbols : SymbolTable} {name : String}

theorem exists_sees_or_misses (ctx : Context) (symbols : SymbolTable) (name : String) :
    (∃ value, ctx.Sees symbols name value) ∨ ctx.Misses symbols name := by
  unfold Context.Misses
  cases hvisible : visibleName? symbols name ctx.frames with
  | none => exact Or.inr rfl
  | some full =>
    have hcontains := SymbolTable.contains_of_visibleName? hvisible
    rw [SymbolTable.contains_eq_isSome] at hcontains
    obtain ⟨symbol, hsymbol⟩ := Option.isSome_iff_exists.mp hcontains
    exact Or.inl ⟨symbol.value, full, hvisible, by rw [SymbolTable.value?, hsymbol]; rfl⟩

theorem Context.Misses.not_sees (h : ctx.Misses symbols name) (value : Value) : ¬ ctx.Sees symbols name value := by
  rintro ⟨full, hfull, -⟩
  rw [Misses, hfull] at h
  cases h

theorem Context.Sees.unique {value value' : Value} (h : ctx.Sees symbols name value)
    (h' : ctx.Sees symbols name value') : value = value' := by
  obtain ⟨full, hfull, hvalue⟩ := h
  obtain ⟨full', hfull', hvalue'⟩ := h'
  obtain rfl := Option.some.inj (hfull.symm.trans hfull')
  exact Option.some.inj (hvalue.symm.trans hvalue')

theorem AcrossPasses.sees_iff {first second : Context} (h : AcrossPasses first second) {value : Value} :
    second.Sees symbols name value ↔ first.Sees symbols name value := by
  rw [Context.Sees, Context.Sees, h.frames]

theorem AcrossPasses.misses_iff {first second : Context} (h : AcrossPasses first second) :
    second.Misses symbols name ↔ first.Misses symbols name := by
  rw [Context.Misses, Context.Misses, h.frames]

theorem Context.sees_alike {other : SymbolTable} (h : symbols.Alike other) {value : Value} :
    ctx.Sees other name value ↔ ctx.Sees symbols name value := by
  simp only [Sees, h.visibleName?_eq, h.value?_eq]

theorem Context.misses_alike {other : SymbolTable} (h : symbols.Alike other) :
    ctx.Misses other name ↔ ctx.Misses symbols name := by
  rw [Misses, Misses, h.visibleName?_eq]

theorem StandsIn.refl (ctx : Context) (symbols : SymbolTable) : StandsIn ctx symbols symbols :=
  ⟨fun _ _ h => h, fun _ value hmisses hsees => absurd hsees (hmisses.not_sees value)⟩

variable {names : List String}

theorem sees_fill_of_mem (hnames : ∀ name ∈ names, IsPlain name) (hname : name ∈ names)
    (hmisses : ctx.Misses symbols name) (value : Value) : ctx.Sees (symbols.fill names value) name value := by
  have hvisible : visibleName? (symbols.fill names value) name ctx.frames = some name := by
    rw [SymbolTable.visibleName?_fill symbols hnames, hmisses, if_pos hname]
    rfl
  have hfree : symbols.get? name = none := SymbolTable.get?_of_visibleName?_eq_none hmisses
  refine ⟨name, hvisible, ?_⟩
  rw [SymbolTable.value?, SymbolTable.get?_fill, hfree, if_pos hname]
  rfl

theorem sees_fill_of_sees (hnames : ∀ name ∈ names, IsPlain name) (added : Value) {value : Value}
    (h : ctx.Sees symbols name value) : ctx.Sees (symbols.fill names added) name value := by
  obtain ⟨full, hfull, hvalue⟩ := h
  refine ⟨full, ?_, ?_⟩
  · rw [SymbolTable.visibleName?_fill symbols hnames, hfull]
    rfl
  · obtain ⟨symbol, hsymbol, hsame⟩ := Option.map_eq_some_iff.mp hvalue
    rw [SymbolTable.value?, SymbolTable.get?_fill, hsymbol, ← hsame]
    rfl

theorem standsIn_fill (hnames : ∀ name ∈ names, IsPlain name) :
    StandsIn ctx symbols (symbols.fill names (.ofNat ctx.pc)) := by
  refine ⟨fun name value => sees_fill_of_sees hnames _, fun name value hmisses hsees => ?_⟩
  have hname : name ∈ names := by
    obtain ⟨full, hfull, -⟩ := hsees
    rw [SymbolTable.visibleName?_fill symbols hnames, hmisses, Option.none_or] at hfull
    split_ifs at hfull with hname
    exact hname
  exact hsees.unique (sees_fill_of_mem hnames hname hmisses _)

end

/-! ### Two passes side by side -/

section
variable {first second : Context} {symbols filled : SymbolTable} {α β : Type} {g : α → α} {h : β → β}

/-- How an evaluation in the first pass ends beside one in a later pass, where
`names` are the names that the first did not find. They end in the same way, with
`g` for what the later pass makes of the result, unless the later one stops at
one of these names. -/
inductive EndMirrored (first : Context) (symbols filled : SymbolTable) (names : List String) (g : α → α) :
    EStateM.Result Problem State α → EStateM.Result Problem State α → Prop
  | ok {a : α} {t t' : State} : Beside symbols filled t t' →
      EndMirrored first symbols filled names g (.ok a t) (.ok (g a) t')
  | error {problem : Problem} {t t' : State} : ¬ problem.BlamesName →
      EndMirrored first symbols filled names g (.error problem t) (.error problem t')
  | stops {r : EStateM.Result Problem State α} {name : String} {problem : Problem} {t' : State} :
      name ∈ names → first.Misses filled name → problem.BlamesName →
      EndMirrored first symbols filled names g r (.error problem t')

/-- The evaluation `m` in the first pass ends as `m'` does in a later one where
the program counter stands in for the names that `m` does not find. -/
def Mirrors (first : Context) (symbols : SymbolTable) (g : α → α) (m m' : Eval α) : Prop :=
  ∀ s, symbols.Alike s.symbols → ∃ names : List String,
    (∀ name ∈ names, IsPlain name ∧ first.Misses symbols name) ∧
    ∀ filled s', StandsIn first symbols filled → Beside symbols filled s s' →
      EndMirrored first symbols filled names g (m s) (m' s')

theorem EndMirrored.mono {names names' : List String} {r r' : EStateM.Result Problem State α}
    (hr : EndMirrored first symbols filled names g r r') (hnames : ∀ name ∈ names, name ∈ names') :
    EndMirrored first symbols filled names' g r r' := by
  cases hr with
  | ok hs => exact .ok hs
  | error hproblem => exact .error hproblem
  | stops hname hmisses hproblem => exact .stops (hnames _ hname) hmisses hproblem

/-- With the program counter for all the names that were not found, the later
evaluation stops at none of them. -/
theorem Mirrors.exists_standsIn {m m' : Eval α} (hm : Mirrors first symbols g m m') {s : State}
    (hs : symbols.Alike s.symbols) : ∃ filled, StandsIn first symbols filled ∧
      ∀ s', Beside symbols filled s s' → EndMirrored first symbols filled [] g (m s) (m' s') := by
  obtain ⟨names, hnames, hends⟩ := hm s hs
  have hplain : ∀ name ∈ names, IsPlain name := fun name hname => (hnames name hname).1
  refine ⟨symbols.fill names (.ofNat first.pc), standsIn_fill hplain, fun s' hbeside => ?_⟩
  have hend := hends _ s' (standsIn_fill hplain) hbeside
  generalize m s = r, m' s' = r' at hend
  cases hend with
  | ok ht => exact .ok ht
  | error hproblem => exact .error hproblem
  | stops hname hmisses hproblem =>
    exact absurd (sees_fill_of_mem hplain hname (hnames _ hname).2 _) (hmisses.not_sees _)

theorem Mirrors.alike {m m' : Eval α} (hm : Mirrors first symbols g m m') {s t : State} {a : α}
    (hs : symbols.Alike s.symbols) (h : m s = .ok a t) : symbols.Alike t.symbols := by
  obtain ⟨filled, -, hends⟩ := hm.exists_standsIn hs
  have hend := hends { s with symbols := filled } ⟨hs, .refl _, rfl⟩
  rw [h] at hend
  generalize m' _ = r' at hend
  cases hend with
  | ok hbeside => exact hbeside.left
  | stops hname _ _ => exact absurd hname List.not_mem_nil

/-- An evaluation that looks no name up. -/
theorem mirrors_of_nameless {m m' : Eval α} (hends : ∀ filled s s', Beside symbols filled s s' →
    EndMirrored first symbols filled [] g (m s) (m' s')) : Mirrors first symbols g m m' :=
  fun s _ => ⟨[], (fun _ hn => absurd hn List.not_mem_nil), fun filled s' _ hs => hends filled s s' hs⟩

theorem mirrors_pure (a : α) : Mirrors first symbols g (pure a) (pure (g a)) :=
  mirrors_of_nameless fun _ _ _ hs => .ok hs

theorem mirrors_throw {problem : Problem} (hproblem : ¬ problem.BlamesName) :
    Mirrors first symbols g (throw problem) (throw problem) :=
  mirrors_of_nameless fun _ _ _ _ => .error hproblem

theorem mirrors_ofExcept {x : Except Problem α} (hx : Avoids Problem.BlamesName x) :
    Mirrors first symbols id (Eval.ofExcept x) (Eval.ofExcept x) := by
  cases x with
  | ok a => exact mirrors_pure a
  | error problem => exact mirrors_throw (hx problem rfl)

theorem mirrors_bind {x x' : Eval α} {f f' : α → Eval β} (hx : Mirrors first symbols g x x')
    (hf : ∀ a, Mirrors first symbols h (f a) (f' (g a))) :
    Mirrors first symbols h (x >>= f) (x' >>= f') := by
  intro s hs
  obtain ⟨names, hnames, hends⟩ := hx s hs
  simp only [bind, EStateM.bind]
  cases hxs : x s with
  | error problem t =>
    refine ⟨names, hnames, fun filled s' hfilled hbeside => ?_⟩
    have hend := hends filled s' hfilled hbeside
    rw [hxs] at hend
    generalize x' s' = r' at hend
    cases hend with
    | error hproblem => exact .error hproblem
    | stops hname hmisses hproblem => exact .stops hname hmisses hproblem
  | ok a t =>
    obtain ⟨later, hlater, hends'⟩ := hf a t (hx.alike hs hxs)
    refine ⟨names ++ later, fun name hname => (List.mem_append.mp hname).elim (hnames name) (hlater name),
      fun filled s' hfilled hbeside => ?_⟩
    have hend := hends filled s' hfilled hbeside
    rw [hxs] at hend
    generalize x' s' = r' at hend
    cases hend with
    | ok hbeside' =>
      exact (hends' filled _ hfilled hbeside').mono fun name hname => List.mem_append_right _ hname
    | stops hname hmisses hproblem => exact .stops (List.mem_append_left _ hname) hmisses hproblem

theorem mirrors_relocate {x x' : Eval α} (column : Nat) (hx : Mirrors first symbols g x x') :
    Mirrors first symbols g (Eval.relocate column x) (Eval.relocate column x') := by
  intro s hs
  obtain ⟨names, hnames, hends⟩ := hx s hs
  refine ⟨names, hnames, fun filled s' hfilled hbeside => ?_⟩
  have hend := hends filled s' hfilled hbeside
  unfold Eval.relocate
  generalize x s = r, x' s' = r' at hend
  cases hend with
  | ok ht => exact .ok ht
  | error hproblem => exact .error hproblem
  | stops hname hmisses hproblem => exact .stops hname hmisses hproblem

/-! ### The evaluator, step by step -/

theorem symbolValue_of_sees {ctx : Context} {name : String} {value : Value} {s : State} (hname : name ≠ "P%")
    (h : ctx.Sees s.symbols name value) (column : Nat) :
    ∃ t, symbolValue ctx name column s = .ok (value, true) t ∧ s.symbols.Alike t.symbols ∧
      t.random = s.random := by
  obtain ⟨full, hfull, hvalue⟩ := h
  have hlookUp : (lookUp ctx.pass s.symbols ctx.frames name ⟨ctx.file, ctx.line, column⟩).1 = some value := by
    simpa [lookUp, hfull] using hvalue
  unfold symbolValue
  simp only [if_neg hname]
  rw [hfull, hlookUp]
  exact ⟨_, rfl, alike_lookUp, rfl⟩

theorem symbolValue_of_misses {ctx : Context} {name : String} {s : State} (hname : name ≠ "P%")
    (h : ctx.Misses s.symbols name) (column : Nat) :
    symbolValue ctx name column s =
      if ctx.pass = .first then .ok (.ofNat ctx.pc, false) s else .error ⟨.symbolNotDefined, column⟩ s := by
  unfold symbolValue
  simp only [if_neg hname]
  rw [h]

/-- What a later pass makes of a value and whether it is known. -/
def sure (r : α × Bool) : α × Bool := (r.1, true)

theorem mirrors_symbolValue (hctx : AcrossPasses first second) {name : String} (hplain : IsPlain name)
    (column : Nat) :
    Mirrors first symbols sure (symbolValue first name column) (symbolValue second name column) := by
  by_cases hname : name = "P%"
  · refine mirrors_of_nameless fun filled s s' hs => ?_
    simp only [symbolValue, hname, if_true, hctx.pc]
    exact .ok hs
  intro s hs
  rcases exists_sees_or_misses first symbols name with ⟨value, hsees⟩ | hmisses
  · obtain ⟨t, ht, halike, hrandom⟩ := symbolValue_of_sees hname ((Context.sees_alike hs).mpr hsees) column
    refine ⟨[], (fun _ hn => absurd hn List.not_mem_nil), fun filled s' hfilled hbeside => ?_⟩
    have hsees' := hctx.sees_iff.mpr (hfilled.kept name value hsees)
    obtain ⟨t', ht', halike', hrandom'⟩ :=
      symbolValue_of_sees hname ((Context.sees_alike hbeside.right).mpr hsees') column
    rw [ht, ht']
    exact .ok ⟨hs.trans halike, hbeside.right.trans halike', by rw [hrandom', hbeside.random, hrandom]⟩
  · refine ⟨[name], (fun n hn => ?_), fun filled s' hfilled hbeside => ?_⟩
    · obtain rfl := List.mem_singleton.mp hn
      exact ⟨hplain, hmisses⟩
    rw [symbolValue_of_misses hname ((Context.misses_alike hs).mpr hmisses), if_pos hctx.isFirst]
    -- the later pass either has the program counter for the name or stops at it
    rcases exists_sees_or_misses first filled name with ⟨value, hsees⟩ | hmisses'
    · obtain rfl := hfilled.counter name value hmisses hsees
      obtain ⟨t', ht', halike', hrandom'⟩ := symbolValue_of_sees hname
        ((Context.sees_alike hbeside.right).mpr (hctx.sees_iff.mpr hsees)) column
      rw [ht']
      exact .ok ⟨hs, hbeside.right.trans halike', hrandom'.trans hbeside.random⟩
    · rw [symbolValue_of_misses hname ((Context.misses_alike hbeside.right).mpr (hctx.misses_iff.mpr hmisses')),
        if_neg hctx.isLater]
      exact .stops List.mem_cons_self hmisses' rfl

theorem mirrors_atomOperand (hctx : AcrossPasses first second) {a : Atom} {column : Nat}
    (ha : HasPlainName (.atom a column)) :
    Mirrors first symbols sure (atomOperand first column a) (atomOperand second column a) := by
  cases a with
  | literal value text => exact mirrors_pure _
  | counter =>
    unfold atomOperand
    rw [hctx.pc]
    exact mirrors_pure _
  | now =>
    unfold atomOperand
    rw [hctx.clock]
    exact mirrors_pure _
  | name name => exact mirrors_bind (mirrors_symbolValue hctx ha column) fun r => mirrors_pure _

/-- Evaluators of texts, one for the first pass and one for a later one. -/
def MirroringTexts (first : Context) (symbols : SymbolTable) (inner inner' : TextEvaluator) : Prop :=
  ∀ text column, Mirrors first symbols sure (inner text column) (inner' text column)

variable {inner inner' : TextEvaluator}

theorem mirrors_callValue (hinner : MirroringTexts first symbols inner inner') (hctx : AcrossPasses first second)
    (f : Function) (arguments : List Value) (column : Nat) :
    Mirrors first symbols sure (callValue inner first f arguments column)
      (callValue inner' second f arguments column) := by
  by_cases hf : f = .eval
  · rw [hf, callValue_eval, callValue_eval]
    split
    · exact hinner _ _
    · exact mirrors_throw nofun
  · refine mirrors_of_nameless fun filled s s' hs => ?_
    rw [callValue_of_ne hf, callValue_of_ne hf, hctx.clock, hs.random]
    cases happly : f.apply first.clock arguments s.random with
    | ok r => exact .ok ⟨hs.left, hs.right, rfl⟩
    | error fault => exact .error (avoids_functionApply _ _ _ _ fault happly)

/-- What a later pass makes of the stacks. -/
def sureStacks (st : Stacks) : Stacks := { st with known := true }

theorem mirrors_close (hinner : MirroringTexts first symbols inner inner') (hctx : AcrossPasses first second)
    (known : Bool) (pending : List Pending) (operands : List Operand) :
    Mirrors first symbols sureStacks (Stacks.close inner first known pending operands)
      (Stacks.close inner' second true pending operands) := by
  unfold Stacks.close
  split
  · dsimp only
    split
    · exact mirrors_throw nofun
    split
    · exact mirrors_throw nofun
    exact mirrors_bind (mirrors_callValue hinner hctx _ _ _) fun r => mirrors_pure _
  · exact mirrors_pure _
  · exact mirrors_pure _

theorem mirrors_nextArgument (known : Bool) (column : Nat) (pending : List Pending) (operands : List Operand) :
    Mirrors first symbols sureStacks (Stacks.nextArgument known column pending operands)
      (Stacks.nextArgument true column pending operands) := by
  unfold Stacks.nextArgument
  split
  · exact mirrors_pure _
  · exact mirrors_throw nofun

theorem mirrors_take (hinner : MirroringTexts first symbols inner inner') (hctx : AcrossPasses first second)
    (st : Stacks) {token : Token} (hplain : HasPlainName token) (hblames : ¬ token.BlamesName) :
    Mirrors first symbols sureStacks (st.take inner first token) ((sureStacks st).take inner' second token) := by
  have hcollapse (ready : Pending → Bool) : Mirrors first symbols id
      (Eval.ofExcept (collapse ready st.pending st.operands))
      (Eval.ofExcept (collapse ready st.pending st.operands)) := mirrors_ofExcept (avoids_collapse _ _ _)
  cases token with
  | opening column => exact mirrors_pure _
  | unary op column => exact mirrors_pure _
  | call f column => exact mirrors_pure _
  | atom a column => exact mirrors_bind (mirrors_atomOperand hctx hplain) fun r => mirrors_pure _
  | closing column => exact mirrors_bind (hcollapse _) fun r => mirrors_close hinner hctx _ _ _
  | comma column => exact mirrors_bind (hcollapse _) fun r => mirrors_nextArgument _ _ _ _
  | binary op spelling column => exact mirrors_bind (hcollapse _) fun r => mirrors_pure _
  | bad problem => exact mirrors_throw hblames

theorem mirrors_takeAll (hinner : MirroringTexts first symbols inner inner') (hctx : AcrossPasses first second) :
    ∀ (tokens : List Token) (st : Stacks), (∀ token ∈ tokens, HasPlainName token) →
      (∀ token ∈ tokens, ¬ token.BlamesName) →
      Mirrors first symbols sureStacks (tokens.foldlM (Stacks.take inner first) st)
        (tokens.foldlM (Stacks.take inner' second) (sureStacks st))
  | [], st, _, _ => mirrors_pure st
  | token :: tokens, st, hplain, hblames => by
    rw [List.foldlM_cons, List.foldlM_cons]
    refine mirrors_bind (mirrors_take hinner hctx st (hplain token List.mem_cons_self)
      (hblames token List.mem_cons_self)) fun st => ?_
    exact mirrors_takeAll hinner hctx tokens st (fun t ht => hplain t (List.mem_cons_of_mem _ ht))
      fun t ht => hblames t (List.mem_cons_of_mem _ ht)

/-- What a later pass makes of an evaluated expression. -/
def Evaluated.sure (e : Evaluated) : Evaluated := { e with known := true }

theorem mirrors_evaluateWith (hinner : MirroringTexts first symbols inner inner') (hctx : AcrossPasses first second)
    (c : Cursor) :
    Mirrors first symbols Evaluated.sure (evaluateWith inner first c) (evaluateWith inner' second c) := by
  refine mirrors_bind (mirrors_takeAll hinner hctx _ _ (hasPlainName_of_mem_scanFrom _)
    (Token.not_blamesName_of_mem_scanFrom _)) fun st => ?_
  exact mirrors_bind (mirrors_ofExcept (avoids_result st _)) fun operand => mirrors_pure _

theorem mirrors_evaluateText (hctx : AcrossPasses first second) : ∀ allowance,
    MirroringTexts first symbols (evaluateText first allowance) (evaluateText second allowance)
  | 0 => fun _ _ => mirrors_throw nofun
  | allowance + 1 => fun text column => by
    refine mirrors_relocate column ?_
    refine mirrors_bind (mirrors_evaluateWith (mirrors_evaluateText hctx allowance) hctx _) fun e => ?_
    dsimp only [Evaluated.sure]
    cases hend : endProblem? e.stop with
    | some problem => exact mirrors_throw (not_blamesName_of_endProblem? hend)
    | none => exact mirrors_pure _

theorem mirrors_evaluate (hctx : AcrossPasses first second) (allowance : Nat) (c : Cursor) :
    Mirrors first symbols Evaluated.sure (evaluate first allowance c) (evaluate second allowance c) :=
  mirrors_evaluateWith (mirrors_evaluateText hctx allowance) hctx c

/-! ### What the first pass gives -/

/-- What an evaluation stops at, if it does. -/
def faultOf? : EStateM.Result Problem State α → Option Fault
  | .ok _ _ => none
  | .error problem _ => some problem.fault

/-- Whether an evaluation looks a name up that is not defined: in the same state,
but with no such name tolerated, it stops there. -/
def MeetsUndefined (ctx : Context) (allowance : Nat) (c : Cursor) (s : State) : Prop :=
  faultOf? (evaluate { ctx with pass := .second } allowance c s) = some .symbolNotDefined

instance (ctx : Context) (allowance : Nat) (c : Cursor) (s : State) :
    Decidable (MeetsUndefined ctx allowance c s) :=
  inferInstanceAs (Decidable (faultOf? _ = some .symbolNotDefined))

theorem acrossPasses_self (hfirst : first.pass = .first) : AcrossPasses first { first with pass := .second } :=
  ⟨hfirst, nofun, rfl, rfl, rfl⟩

theorem evaluate_known_across (hctx : AcrossPasses first second) {allowance : Nat} {c : Cursor} {s s' t : State}
    {e : Evaluated} (hrandom : s'.random = s.random)
    (hsees : ∀ name value, first.Sees s.symbols name value → second.Sees s'.symbols name value)
    (he : evaluate first allowance c s = .ok e t) (hknown : e.known = true) :
    ∃ t', evaluate second allowance c s' = .ok e t' ∧ t'.random = t.random := by
  obtain ⟨notes, -, hagrees⟩ := evaluate_agrees hctx.pc hctx.clock he hknown hrandom
  have hcarries : ∀ n ∈ notes, Carries first s.symbols second s'.symbols n :=
    fun n _ pass name full value _ _ hfull hvalue => hsees name value ⟨full, hfull, hvalue⟩
  obtain ⟨t', ht', hdrawn, -⟩ := hagrees hcarries
  exact ⟨t', ht', hdrawn⟩

/-- The mark is exact: a value is not known if and only if a name was undefined. -/
theorem known_eq_false_iff (hfirst : first.pass = .first) {allowance : Nat} {c : Cursor} {s t : State}
    {e : Evaluated} (he : evaluate first allowance c s = .ok e t) :
    e.known = false ↔ MeetsUndefined first allowance c s := by
  have hctx := acrossPasses_self hfirst
  constructor
  · intro hunknown
    obtain ⟨names, -, hends⟩ := mirrors_evaluate hctx allowance c s (.refl _)
    have hend := hends s.symbols s (.refl first _) ⟨.refl _, .refl _, rfl⟩
    rw [he] at hend
    unfold MeetsUndefined
    generalize hr : evaluate { first with pass := .second } allowance c s = r at hend
    cases hend with
    | ok _ =>
      -- a later pass without a fault has no undefined name, and neither has the first
      obtain ⟨notes, -, hagrees⟩ := evaluate_agrees hctx.pc.symm hctx.clock.symm hr rfl rfl
      obtain ⟨t', ht', -⟩ := hagrees fun n _ pass name full value _ _ hfull hvalue => ⟨full, hfull, hvalue⟩
      obtain ⟨hsame, -⟩ := EStateM.Result.ok.inj (he.symm.trans ht')
      rw [hsame] at hunknown
      cases hunknown
    | stops _ _ hproblem => exact congrArg some hproblem
  · intro hmeets
    by_contra hknown
    rw [Bool.not_eq_false] at hknown
    obtain ⟨t', ht', -⟩ := evaluate_known_across hctx rfl (fun _ _ hsees => hsees) he hknown
    rw [MeetsUndefined, ht'] at hmeets
    cases hmeets

/-- A value that the first pass marks as known is the value of the expression in
every later pass in which the names that were found keep their values, with the
same tree, end and draws. The mark is missing only where a name was undefined,
and never in a later pass. -/
theorem known_across_passes (hctx : AcrossPasses first second) {s s' : State} (hrandom : s'.random = s.random)
    (hsees : ∀ name value, first.Sees s.symbols name value → second.Sees s'.symbols name value)
    (allowance : Nat) (c : Cursor) :
    (∀ e t, evaluate first allowance c s = .ok e t → e.known = true →
      ∃ t', evaluate second allowance c s' = .ok e t' ∧ t'.random = t.random) ∧
    (∀ e t, evaluate first allowance c s = .ok e t → (e.known = false ↔ MeetsUndefined first allowance c s)) ∧
    ∀ ctx state e t, ctx.pass ≠ .first → evaluate ctx allowance c state = .ok e t → e.known = true :=
  ⟨fun _ _ he hknown => evaluate_known_across hctx hrandom hsees he hknown,
    fun _ _ he => known_eq_false_iff hctx.isFirst he, fun _ _ _ _ hpass he => evaluate_known hpass he⟩

/-- A place outside all scopes, at the start of memory. -/
def forwardSample (pass : Pass) : Context := ⟨pass, 0, 0, [], 0, 0⟩

/-- The state with one symbol, and with others added. -/
def forwardSampleState (names : List String) (value : Value) : State :=
  ⟨(SymbolTable.empty.add "a" (.num 3) false none).fill names value, ⟨0⟩, []⟩

theorem acrossPasses_forwardSample : AcrossPasses (forwardSample .first) (forwardSample .second) :=
  ⟨rfl, nofun, rfl, rfl, rfl⟩

theorem sees_forwardSampleState {name : String} {value : Value}
    (h : (forwardSample .first).Sees (forwardSampleState [] default).symbols name value) :
    (forwardSample .second).Sees (forwardSampleState ["fwd"] (.num 2)).symbols name value := by
  have hplain : ∀ name ∈ ["fwd"], IsPlain name := by simp [IsPlain]
  exact acrossPasses_forwardSample.sees_iff.mpr (sees_fill_of_sees hplain _ h)

theorem known_across_passes_eval : ∃ node stop t t',
    evaluate (forwardSample .first) 1 (.ofText "EVAL(\"a+1\")*2") (forwardSampleState [] default) =
      .ok ⟨.num 8, node, true, stop⟩ t ∧
    evaluate (forwardSample .second) 1 (.ofText "EVAL(\"a+1\")*2") (forwardSampleState ["fwd"] (.num 2)) =
      .ok ⟨.num 8, node, true, stop⟩ t' := by
  have hreading : readingOf? (evaluate (forwardSample .first) 1 (.ofText "EVAL(\"a+1\")*2")
      (forwardSampleState [] default)) = some (.num 8, true) := by decide +kernel
  have hrandom : (forwardSampleState ["fwd"] (.num 2)).random = (forwardSampleState [] default).random := rfl
  obtain ⟨node, stop, t, ht⟩ := exists_of_readingOf? hreading
  obtain ⟨t', ht', -⟩ := (known_across_passes acrossPasses_forwardSample hrandom
    (fun _ _ => sees_forwardSampleState) 1 _).1 _ t ht rfl
  exact ⟨node, stop, t, t', ht, ht'⟩

/-- An undefined name is no fault in the first pass. It gives an expression that
meets one a value exactly if the expression has that value in a later pass in
which the names that were found keep theirs and the others are the program
counter. -/
theorem firstPass_stands_in (hctx : AcrossPasses first second) {allowance : Nat} {c : Cursor} {s : State}
    (hmeets : MeetsUndefined first allowance c s) :
    faultOf? (evaluate first allowance c s) ≠ some .symbolNotDefined ∧
    ∀ value node stop, (∃ t, evaluate first allowance c s = .ok ⟨value, node, false, stop⟩ t) ↔
      ∃ s' t', s'.random = s.random ∧ StandsIn first s.symbols s'.symbols ∧
        evaluate second allowance c s' = .ok ⟨value, node, true, stop⟩ t' := by
  have hmirrors : Mirrors first s.symbols Evaluated.sure _ _ := mirrors_evaluate hctx allowance c
  obtain ⟨filled, hfilled, hends⟩ := hmirrors.exists_standsIn (.refl _)
  have hend := hends { s with symbols := filled } ⟨.refl _, .refl _, rfl⟩
  refine ⟨?_, fun value node stop => ⟨?_, ?_⟩⟩
  · generalize evaluate first allowance c s = r, evaluate second allowance c _ = r' at hend
    cases hend with
    | ok _ => exact nofun
    | error hproblem => exact fun h => hproblem (Option.some.inj h)
    | stops hname _ _ => exact absurd hname List.not_mem_nil
  · rintro ⟨t, ht⟩
    rw [ht] at hend
    generalize hr : evaluate second allowance c { s with symbols := filled } = r' at hend
    cases hend with
    | ok _ => exact ⟨{ s with symbols := filled }, _, rfl, hfilled, hr⟩
    | stops hname _ _ => exact absurd hname List.not_mem_nil
  · rintro ⟨s', t', hrandom, hstands, ht'⟩
    obtain ⟨names, -, hends'⟩ := hmirrors s (.refl _)
    have hend' := hends' s'.symbols s' hstands ⟨.refl _, .refl _, hrandom⟩
    rw [ht'] at hend'
    generalize hr : evaluate first allowance c s = r, hr' : EStateM.Result.ok _ _ = r' at hend'
    cases hend' with
    | @ok e t _ _ =>
      have hunknown : e.known = false := (known_eq_false_iff hctx.isFirst hr).mpr hmeets
      obtain ⟨value', node', known, stop'⟩ := e
      obtain ⟨hsame, -⟩ := EStateM.Result.ok.inj hr'
      cases hsame
      cases hunknown
      exact ⟨t, rfl⟩
    | error _ => cases hr'
    | stops _ _ _ => cases hr'

theorem firstPass_stands_in_sum : MeetsUndefined (forwardSample .first) 1 (.ofText "fwd+a") (forwardSampleState [] default) ∧
    ∃ node stop t, evaluate (forwardSample .first) 1 (.ofText "fwd+a") (forwardSampleState [] default) =
      .ok ⟨.num 3, node, false, stop⟩ t := by
  have hmeets : MeetsUndefined (forwardSample .first) 1 (.ofText "fwd+a") (forwardSampleState [] default) := by
    decide +kernel
  have hreading : readingOf? (evaluate (forwardSample .second) 1 (.ofText "fwd+a")
      (forwardSampleState ["fwd"] (.ofNat 0))) = some (.num 3, true) := by decide +kernel
  have hplain : ∀ name ∈ ["fwd"], IsPlain name := by simp [IsPlain]
  obtain ⟨node, stop, t', ht'⟩ := exists_of_readingOf? hreading
  obtain ⟨t, ht⟩ := ((firstPass_stands_in acrossPasses_forwardSample hmeets).2 (.num 3) node stop).mpr
    ⟨forwardSampleState ["fwd"] (.ofNat 0), t', rfl, standsIn_fill hplain, ht'⟩
  exact ⟨hmeets, node, stop, t, ht⟩

/-- A name that is to be 2 is tolerated, but not the program counter in its place:
the first pass refuses to divide by zero. -/
theorem firstPass_refuses_counter :
    (∀ name value, (forwardSample .first).Sees (forwardSampleState [] default).symbols name value →
      (forwardSample .second).Sees (forwardSampleState ["fwd"] (.num 2)).symbols name value) ∧
    MeetsUndefined (forwardSample .first) 1 (.ofText "1/fwd") (forwardSampleState [] default) ∧
    faultOf? (evaluate (forwardSample .first) 1 (.ofText "1/fwd") (forwardSampleState [] default)) =
      some .divisionByZero ∧
    readingOf? (evaluate (forwardSample .second) 1 (.ofText "1/fwd") (forwardSampleState ["fwd"] (.num 2))) =
      some (.num 0, true) :=
  ⟨fun _ _ => sees_forwardSampleState, by decide +kernel, by decide +kernel, by decide +kernel⟩

end
end Expr
end Asm6502
