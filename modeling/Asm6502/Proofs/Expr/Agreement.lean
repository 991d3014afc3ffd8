/-
# Evaluation in other scopes

An evaluation whose value is known depends on scopes and symbols only through
the names that it looks up, and it notes each of them. If other scopes with
other symbols have the same values for these names, the expression comes to the
same there and draws the same random numbers.

Which names are looked up is not to be told from the text of an expression, since
`EVAL` computes text. So the condition is on the notes of the one evaluation.

Key definitions: `Expr.Context.Sees`, `Expr.Carries`, `Expr.Agrees`.
Key theorems: `Expr.agrees_symbolValue`, `Expr.agrees_take`,
`Expr.agrees_evaluate`, `Expr.evaluate_agrees`.
-/
import Asm6502.Proofs.Expr.Evaluation

namespace Asm6502

theorem Eval.bind_ok {α β : Type} {x : Eval α} {f : α → Eval β} {s u : Expr.State} {b : β}
    (h : (x >>= f) s = .ok b u) : ∃ a t, x s = .ok a t ∧ f a t = .ok b u := by
  simp only [bind, EStateM.bind] at h
  cases hx : x s with
  | ok a t => exact ⟨a, t, rfl, by rwa [hx] at h⟩
  | error problem t =>
    rw [hx] at h
    cases h

namespace Expr

/-- Whether the scopes of a context see a value under a name. -/
def Context.Sees (ctx : Context) (symbols : SymbolTable) (name : String) (value : Value) : Prop :=
  ∃ full, visibleName? symbols name ctx.frames = some full ∧ symbols.value? full = some value

/-- Whether what was found in one context is to be seen in another. -/
def Carries (ctx : Context) (symbols : SymbolTable) (ctx' : Context) (symbols' : SymbolTable) (n : Note) : Prop :=
  ∀ pass name full value, n = .found pass full value → IsPlain name →
    visibleName? symbols name ctx.frames = some full → symbols.value? full = some value →
    ctx'.Sees symbols' name value

section
variable {ctx ctx' : Context} {symbols symbols' : SymbolTable} {α β : Type} {P : α → Prop} {Q : β → Prop}

/-- States of two evaluations side by side, each with its own symbols. -/
structure Beside (symbols symbols' : SymbolTable) (s s' : State) : Prop where
  left : symbols.Alike s.symbols
  right : symbols'.Alike s'.symbols
  random : s'.random = s.random

/-- The evaluation `m` gives a result that satisfies `P` only if `m'` gives the
same one, as long as what was found on the way is to be seen there too. -/
def Agrees (ctx : Context) (symbols : SymbolTable) (ctx' : Context) (symbols' : SymbolTable)
    (P : α → Prop) (m m' : Eval α) : Prop :=
  ∀ s a t, m s = .ok a t → ∃ notes, t.history = notes ++ s.history ∧
    ∀ s', Beside symbols symbols' s s' → P a → (∀ n ∈ notes, Carries ctx symbols ctx' symbols' n) →
      ∃ t', m' s' = .ok a t' ∧ Beside symbols symbols' t t'

theorem agrees_pure (a : α) : Agrees ctx symbols ctx' symbols' P (pure a) (pure a) := by
  intro s a t h
  cases h
  exact ⟨[], rfl, fun s' hs _ _ => ⟨s', rfl, hs⟩⟩

theorem agrees_throw (problem : Problem) (m' : Eval α) :
    Agrees ctx symbols ctx' symbols' P (throw problem) m' := by
  intro s a t h
  cases h

theorem agrees_ofExcept (x : Except Problem α) :
    Agrees ctx symbols ctx' symbols' P (Eval.ofExcept x) (Eval.ofExcept x) := by
  cases x with
  | ok a => exact agrees_pure a
  | error problem => exact agrees_throw problem _

theorem agrees_bind {x x' : Eval α} {f f' : α → Eval β} (hx : Agrees ctx symbols ctx' symbols' P x x')
    (hf : ∀ a, Agrees ctx symbols ctx' symbols' Q (f a) (f' a))
    (hP : ∀ a s b t, f a s = .ok b t → Q b → P a) :
    Agrees ctx symbols ctx' symbols' Q (x >>= f) (x' >>= f') := by
  intro s b u h
  obtain ⟨a, t, hxs, hfa⟩ := Eval.bind_ok h
  obtain ⟨notes, hnotes, hxs'⟩ := hx s a t hxs
  obtain ⟨later, hlater, hfa'⟩ := hf a t b u hfa
  refine ⟨later ++ notes, by rw [hlater, hnotes, List.append_assoc], fun s' hs hb hcarries => ?_⟩
  obtain ⟨t', ht', ht⟩ := hxs' s' hs (hP a t b u hfa hb)
    fun n hn => hcarries n (List.mem_append_right _ hn)
  obtain ⟨u', hu', hu⟩ := hfa' t' ht hb fun n hn => hcarries n (List.mem_append_left _ hn)
  refine ⟨u', ?_, hu⟩
  simp only [bind, EStateM.bind, ht', hu']

theorem agrees_relocate {x x' : Eval α} (column : Nat) (hx : Agrees ctx symbols ctx' symbols' P x x') :
    Agrees ctx symbols ctx' symbols' P (Eval.relocate column x) (Eval.relocate column x') := by
  intro s a t h
  unfold Eval.relocate at h
  split at h
  · rename_i hxs
    cases h
    obtain ⟨notes, hnotes, hxs'⟩ := hx s a t hxs
    refine ⟨notes, hnotes, fun s' hs ha hcarries => ?_⟩
    obtain ⟨t', ht', ht⟩ := hxs' s' hs ha hcarries
    exact ⟨t', by simp only [Eval.relocate, ht'], ht⟩
  · cases h

/-! ### The evaluator, step by step -/

theorem agrees_symbolValue (hpc : ctx'.pc = ctx.pc) {name : String} (hname : IsPlain name) (column : Nat) :
    Agrees ctx symbols ctx' symbols' (fun r => r.2 = true) (symbolValue ctx name column)
      (symbolValue ctx' name column) := by
  intro s r t h
  unfold symbolValue at h ⊢
  by_cases hcounter : name = "P%"
  · simp only [hcounter, if_true] at h
    cases h
    exact ⟨[], rfl, fun s' hs _ _ => ⟨s', by simp only [hcounter, if_true, hpc], hs⟩⟩
  simp only [hcounter, if_false] at h ⊢
  split at h
  · rename_i full value hfull hvalue
    cases h
    refine ⟨[.found ctx.pass full value], rfl, fun s' hs _ hcarries => ?_⟩
    -- what was seen here is seen in the other scopes
    have hvisible : visibleName? symbols name ctx.frames = some full :=
      (hs.left.visibleName?_eq _ _).trans hfull
    have hfound : symbols.value? full = some value := by
      rw [hs.left.value?_eq]
      simpa [lookUp, hfull] using hvalue
    obtain ⟨full', hfull', hvalue'⟩ :=
      hcarries _ List.mem_cons_self _ name full value rfl hname hvisible hfound
    rw [hs.right.visibleName?_eq] at hfull'
    rw [hs.right.value?_eq] at hvalue'
    have hlookUp : (lookUp ctx'.pass s'.symbols ctx'.frames name ⟨ctx'.file, ctx'.line, column⟩).1 =
        some value := by simpa [lookUp, hfull'] using hvalue'
    rw [hfull', hlookUp]
    exact ⟨_, rfl, hs.left.trans alike_lookUp, hs.right.trans alike_lookUp, hs.random⟩
  · split_ifs at h
    cases h
    exact ⟨[], rfl, fun _ _ hknown _ => by cases hknown⟩

theorem agrees_atomOperand (hpc : ctx'.pc = ctx.pc) (hclock : ctx'.clock = ctx.clock) {a : Atom}
    {column : Nat} (ha : HasPlainName (.atom a column)) :
    Agrees ctx symbols ctx' symbols' (fun r => r.2 = true) (atomOperand ctx column a)
      (atomOperand ctx' column a) := by
  cases a with
  | literal value text => exact agrees_pure _
  | counter =>
    unfold atomOperand
    rw [hpc]
    exact agrees_pure _
  | now =>
    unfold atomOperand
    rw [hclock]
    exact agrees_pure _
  | name name =>
    refine agrees_bind (agrees_symbolValue hpc ha column) (fun r => agrees_pure _) fun r s b t h hb => ?_
    cases h
    exact hb

/-- Evaluators of texts that agree. -/
def AgreeingTexts (ctx : Context) (symbols : SymbolTable) (ctx' : Context) (symbols' : SymbolTable)
    (inner inner' : TextEvaluator) : Prop :=
  ∀ text column, Agrees ctx symbols ctx' symbols' (fun r => r.2 = true) (inner text column) (inner' text column)

variable {inner inner' : TextEvaluator}

theorem agrees_callValue (hinner : AgreeingTexts ctx symbols ctx' symbols' inner inner')
    (hclock : ctx'.clock = ctx.clock) (f : Function) (arguments : List Value) (column : Nat) :
    Agrees ctx symbols ctx' symbols' (fun r => r.2 = true) (callValue inner ctx f arguments column)
      (callValue inner' ctx' f arguments column) := by
  by_cases hf : f = .eval
  · rw [hf, callValue_eval, callValue_eval]
    split
    · exact hinner _ _
    · exact agrees_throw _ _
  · intro s r t h
    rw [callValue_of_ne hf] at h
    split at h
    · rename_i hvalue
      cases h
      refine ⟨[], rfl, fun s' hs _ _ => ?_⟩
      rw [callValue_of_ne hf, hclock, hs.random, hvalue]
      exact ⟨_, rfl, hs.left, hs.right, rfl⟩
    · cases h

theorem agrees_close (hinner : AgreeingTexts ctx symbols ctx' symbols' inner inner')
    (hclock : ctx'.clock = ctx.clock) (known : Bool) (pending : List Pending) (operands : List Operand) :
    Agrees ctx symbols ctx' symbols' (·.known = true) (Stacks.close inner ctx known pending operands)
      (Stacks.close inner' ctx' known pending operands) := by
  unfold Stacks.close
  split
  · dsimp only
    split
    · exact agrees_throw _ _
    split
    · exact agrees_throw _ _
    refine agrees_bind (agrees_callValue hinner hclock _ _ _) (fun r => agrees_pure _) fun r s st t h hst => ?_
    cases h
    exact (Bool.and_eq_true_iff.mp hst).2
  · exact agrees_pure _
  · exact agrees_pure _

theorem agrees_nextArgument {P : Stacks → Prop} (known : Bool) (column : Nat) (pending : List Pending) (operands : List Operand) :
    Agrees ctx symbols ctx' symbols' P (Stacks.nextArgument known column pending operands)
      (Stacks.nextArgument known column pending operands) := by
  unfold Stacks.nextArgument
  split
  · exact agrees_pure _
  · exact agrees_throw _ _

theorem agrees_take (hinner : AgreeingTexts ctx symbols ctx' symbols' inner inner')
    (hpc : ctx'.pc = ctx.pc) (hclock : ctx'.clock = ctx.clock) (st : Stacks) {token : Token}
    (htoken : HasPlainName token) :
    Agrees ctx symbols ctx' symbols' (·.known = true) (st.take inner ctx token) (st.take inner' ctx' token) := by
  have hcollapse (ready : Pending → Bool) : Agrees ctx symbols ctx' symbols' (fun _ => True)
      (Eval.ofExcept (collapse ready st.pending st.operands))
      (Eval.ofExcept (collapse ready st.pending st.operands)) := agrees_ofExcept _
  cases token with
  | opening column => exact agrees_pure _
  | unary op column => exact agrees_pure _
  | call f column => exact agrees_pure _
  | atom a column =>
    refine agrees_bind (agrees_atomOperand hpc hclock htoken) (fun r => agrees_pure _) fun r s st' t h hst => ?_
    cases h
    exact (Bool.and_eq_true_iff.mp hst).2
  | closing column =>
    exact agrees_bind (hcollapse _) (fun r => agrees_close hinner hclock _ _ _) fun _ _ _ _ _ _ => trivial
  | comma column =>
    exact agrees_bind (hcollapse _) (fun r => agrees_nextArgument _ _ _ _) fun _ _ _ _ _ _ => trivial
  | binary op spelling column =>
    exact agrees_bind (hcollapse _) (fun r => agrees_pure _) fun _ _ _ _ _ _ => trivial
  | bad problem => exact agrees_throw _ _

theorem known_of_close {known : Bool} {pending : List Pending} {operands : List Operand} {st : Stacks}
    {s t : State} (h : Stacks.close inner ctx known pending operands s = .ok st t) (hknown : st.known = true) :
    known = true := by
  rcases pending with _ | ⟨p, pending⟩
  · cases h
    exact hknown
  cases p with
  | call f arguments column =>
    simp only [Stacks.close] at h
    by_cases harity : arguments + 1 ≠ f.arity
    · rw [if_pos harity] at h
      cases h
    rw [if_neg harity] at h
    by_cases hmissing : operands.length < f.arity
    · rw [if_pos hmissing] at h
      cases h
    rw [if_neg hmissing] at h
    obtain ⟨r, u, -, hreturn⟩ := Eval.bind_ok h
    cases hreturn
    exact (Bool.and_eq_true_iff.mp hknown).1
  | bracket column =>
    cases h
    exact hknown
  | unary op column =>
    cases h
    exact hknown
  | binary op spelling column =>
    cases h
    exact hknown

/-- What is known at the end of an expression was known all along. -/
theorem known_of_take {st st' : Stacks} {token : Token} {s t : State}
    (h : st.take inner ctx token s = .ok st' t) (hknown : st'.known = true) : st.known = true := by
  cases token with
  | opening column =>
    cases h
    exact hknown
  | unary op column =>
    cases h
    exact hknown
  | call f column =>
    cases h
    exact hknown
  | atom a column =>
    obtain ⟨r, u, -, hreturn⟩ := Eval.bind_ok h
    cases hreturn
    exact (Bool.and_eq_true_iff.mp hknown).1
  | closing column =>
    obtain ⟨⟨pending, operands⟩, u, -, hclose⟩ := Eval.bind_ok h
    exact known_of_close hclose hknown
  | comma column =>
    obtain ⟨⟨pending, operands⟩, u, -, hargument⟩ := Eval.bind_ok h
    rcases pending with _ | ⟨⟨_ | _ | _ | _⟩, pending⟩ <;> cases hargument
    exact hknown
  | binary op spelling column =>
    obtain ⟨⟨pending, operands⟩, u, -, hreturn⟩ := Eval.bind_ok h
    cases hreturn
    exact hknown
  | bad problem => cases h

theorem known_of_takeAll : ∀ (tokens : List Token) {st st' : Stacks} {s t : State},
    tokens.foldlM (Stacks.take inner ctx) st s = .ok st' t → st'.known = true → st.known = true
  | [], _, _, _, _, h, hknown => by
    cases h
    exact hknown
  | token :: tokens, _, _, _, _, h, hknown => by
    rw [List.foldlM_cons] at h
    obtain ⟨st₁, u, hfirst, hrest⟩ := Eval.bind_ok h
    exact known_of_take hfirst (known_of_takeAll tokens hrest hknown)

theorem agrees_takeAll (hinner : AgreeingTexts ctx symbols ctx' symbols' inner inner')
    (hpc : ctx'.pc = ctx.pc) (hclock : ctx'.clock = ctx.clock) :
    ∀ (tokens : List Token) (st : Stacks), (∀ token ∈ tokens, HasPlainName token) →
      Agrees ctx symbols ctx' symbols' (·.known = true) (tokens.foldlM (Stacks.take inner ctx) st)
        (tokens.foldlM (Stacks.take inner' ctx') st)
  | [], st, _ => agrees_pure st
  | token :: tokens, st, hnames => by
    rw [List.foldlM_cons, List.foldlM_cons]
    refine agrees_bind (agrees_take hinner hpc hclock st (hnames token List.mem_cons_self)) (fun st => ?_)
      fun st s st' t h hknown => known_of_takeAll tokens h hknown
    exact agrees_takeAll hinner hpc hclock tokens st fun t ht => hnames t (List.mem_cons_of_mem _ ht)

theorem agrees_evaluateWith (hinner : AgreeingTexts ctx symbols ctx' symbols' inner inner')
    (hpc : ctx'.pc = ctx.pc) (hclock : ctx'.clock = ctx.clock) (c : Cursor) :
    Agrees ctx symbols ctx' symbols' (·.known = true) (evaluateWith inner ctx c) (evaluateWith inner' ctx' c) := by
  refine agrees_bind (agrees_takeAll hinner hpc hclock _ _ (hasPlainName_of_mem_scanFrom _)) (fun st => ?_)
    fun st s e t h hknown => ?_
  · exact agrees_bind (P := fun _ => True) (agrees_ofExcept _) (fun _ => agrees_pure _) fun _ _ _ _ _ _ => trivial
  · obtain ⟨operand, u, -, hreturn⟩ := Eval.bind_ok h
    cases hreturn
    exact hknown

theorem agrees_evaluateText (hpc : ctx'.pc = ctx.pc) (hclock : ctx'.clock = ctx.clock) :
    ∀ allowance, AgreeingTexts ctx symbols ctx' symbols' (evaluateText ctx allowance)
      (evaluateText ctx' allowance)
  | 0 => fun _ _ => agrees_throw _ _
  | allowance + 1 => fun text column => by
    refine agrees_relocate column ?_
    refine agrees_bind (agrees_evaluateWith (agrees_evaluateText hpc hclock allowance) hpc hclock _)
      (fun e => ?_) fun e s r t h hknown => ?_
    · split
      · exact agrees_throw _ _
      · exact agrees_pure _
    · cases hend : endProblem? e.stop with
      | some problem =>
        rw [hend] at h
        cases h
      | none =>
        rw [hend] at h
        cases h
        exact hknown

theorem agrees_evaluate (hpc : ctx'.pc = ctx.pc) (hclock : ctx'.clock = ctx.clock) (allowance : Nat) (c : Cursor) :
    Agrees ctx symbols ctx' symbols' (·.known = true) (evaluate ctx allowance c) (evaluate ctx' allowance c) :=
  agrees_evaluateWith (agrees_evaluateText hpc hclock allowance) hpc hclock c

/-- An expression whose value is known comes to the same wherever the names that
it looks up have the same values. -/
theorem evaluate_agrees (hpc : ctx'.pc = ctx.pc) (hclock : ctx'.clock = ctx.clock) {allowance : Nat} {c : Cursor}
    {s s' t : State} {e : Evaluated} (h : evaluate ctx allowance c s = .ok e t) (hknown : e.known = true)
    (hrandom : s'.random = s.random) :
    ∃ notes, t.history = notes ++ s.history ∧
      ((∀ n ∈ notes, Carries ctx s.symbols ctx' s'.symbols n) →
        ∃ t', evaluate ctx' allowance c s' = .ok e t' ∧ t'.random = t.random ∧ s'.symbols.Alike t'.symbols) := by
  obtain ⟨notes, hnotes, hagrees⟩ := agrees_evaluate hpc hclock allowance c s e t h
  refine ⟨notes, hnotes, fun hcarries => ?_⟩
  obtain ⟨t', ht', hbeside⟩ := hagrees s' ⟨.refl _, .refl _, hrandom⟩ hknown hcarries
  exact ⟨t', ht', hbeside.random, hbeside.right⟩

end
end Expr
end Asm6502
