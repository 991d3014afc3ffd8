/-
# What an evaluation looks at and what it leaves

An evaluation is orderly in three ways. Its result depends on the symbols only
through their values: where symbols are used makes no difference. It leaves
every symbol as it was, but for the places of use, and notes the values that it
found. And after the first pass every value that it gives is known, since a
name that is not defined is an error there.

The three hold of a program if they hold of its steps, so they are proved
together, along the definitions of the evaluator.

Key definitions: `Expr.Orderly`, `Expr.Follows`.
Key theorems: `Expr.orderly_evaluate`, `Expr.evaluate_known`,
`Expr.evaluate_follows`, `Expr.evaluate_ends_alike`.
-/
import Mathlib.Tactic.SplitIfs
import Asm6502.Proofs.Expr.Stacks
import Asm6502.Proofs.SymbolTable

namespace Asm6502
namespace Expr

/-- States that no evaluation tells apart. -/
structure State.Alike (s s' : State) : Prop where
  symbols : s.symbols.Alike s'.symbols
  random : s.random = s'.random

/-- A note of a value found in these symbols under a name that the open scopes
see. -/
def IsSighting (pass : Pass) (frames : List Frame) (symbols : SymbolTable) (n : Note) : Prop :=
  ∃ name full value, n = .found pass full value ∧ IsPlain name ∧
    visibleName? symbols name frames = some full ∧ symbols.value? full = some value

/-- What an evaluation may do to the state. -/
structure Follows (ctx : Context) (s t : State) : Prop where
  symbols : s.symbols.Alike t.symbols
  history : ∃ notes, t.history = notes ++ s.history ∧
    ∀ n ∈ notes, IsSighting ctx.pass ctx.frames s.symbols n

theorem Follows.refl (ctx : Context) (s : State) : Follows ctx s s :=
  ⟨.refl _, [], rfl, fun _ h => by cases h⟩

theorem IsSighting.of_alike {pass : Pass} {frames : List Frame} {t u : SymbolTable} {n : Note}
    (h : t.Alike u) (hn : IsSighting pass frames u n) : IsSighting pass frames t n := by
  obtain ⟨name, full, value, rfl, hplain, hfull, hvalue⟩ := hn
  exact ⟨name, full, value, rfl, hplain, (h.visibleName?_eq _ _).trans hfull,
    (h.value?_eq _).trans hvalue⟩

theorem Follows.trans {ctx : Context} {s t u : State} (h : Follows ctx s t) (h' : Follows ctx t u) :
    Follows ctx s u := by
  obtain ⟨notes, hn, hs⟩ := h.history
  obtain ⟨notes', hn', hs'⟩ := h'.history
  refine ⟨h.symbols.trans h'.symbols, notes' ++ notes, ?_, fun n hmem => ?_⟩
  · rw [hn', hn, List.append_assoc]
  · rcases List.mem_append.mp hmem with hmem | hmem
    · exact (hs' n hmem).of_alike h.symbols
    · exact hs n hmem

/-- Two ways in which an evaluation that began in `s` ends, told apart by nothing
but the places where symbols are used. -/
inductive EndAlike (ctx : Context) (P : α → Prop) (s : State) :
    EStateM.Result Problem State α → EStateM.Result Problem State α → Prop
  | ok {a : α} {t t' : State} : P a → t.Alike t' → Follows ctx s t →
      EndAlike ctx P s (.ok a t) (.ok a t')
  | error {problem : Problem} {t t' : State} : t.Alike t' → Follows ctx s t →
      EndAlike ctx P s (.error problem t) (.error problem t')

/-- Evaluations from states that are alike end alike, and what they give
satisfies `P`. -/
def Orderly (ctx : Context) (P : α → Prop) (m : Eval α) : Prop :=
  ∀ s s', s.Alike s' → EndAlike ctx P s (m s) (m s')

section
variable {α β : Type} {ctx : Context} {P : α → Prop} {Q : β → Prop}

theorem EndAlike.of_follows {s t : State} {r r' : EStateM.Result Problem State α}
    (h : Follows ctx s t) (hr : EndAlike ctx P t r r') : EndAlike ctx P s r r' := by
  cases hr with
  | ok ha ht hf => exact .ok ha ht (h.trans hf)
  | error ht hf => exact .error ht (h.trans hf)

theorem orderly_pure {a : α} (h : P a) : Orderly ctx P (pure a) :=
  fun s _ hs => .ok h hs (.refl ctx s)

theorem orderly_throw (problem : Problem) : Orderly ctx P (throw problem) :=
  fun s _ hs => .error hs (.refl ctx s)

theorem orderly_ofExcept {x : Except Problem α} (h : ∀ a, x = .ok a → P a) :
    Orderly ctx P (Eval.ofExcept x) := by
  cases x with
  | ok a => exact orderly_pure (h a rfl)
  | error problem => exact orderly_throw problem

theorem orderly_bind {x : Eval α} {f : α → Eval β} (hx : Orderly ctx P x)
    (hf : ∀ a, P a → Orderly ctx Q (f a)) : Orderly ctx Q (x >>= f) := by
  intro s s' hs
  have h := hx s s' hs
  simp only [bind, EStateM.bind]
  generalize x s = r, x s' = r' at h
  cases h with
  | ok ha ht hfollows => exact (hf _ ha _ _ ht).of_follows hfollows
  | error ht hfollows => exact .error ht hfollows

theorem orderly_relocate {x : Eval α} (column : Nat) (hx : Orderly ctx P x) :
    Orderly ctx P (Eval.relocate column x) := by
  intro s s' hs
  have h := hx s s' hs
  unfold Eval.relocate
  generalize x s = r, x s' = r' at h
  cases h with
  | ok ha ht hfollows => exact .ok ha ht hfollows
  | error ht hfollows => exact .error ht hfollows

end

/-! ### The evaluator, step by step -/

/-- A value may be unknown in the first pass only. -/
def KnownAfterFirst (ctx : Context) (known : Bool) : Prop := ctx.pass ≠ .first → known = true

theorem alike_lookUp {symbols : SymbolTable} {frames : List Frame} {pass : Pass} {name : String}
    {place : Position} : symbols.Alike (lookUp pass symbols frames name place).2 := by
  unfold lookUp
  split
  · exact .refl _
  · split_ifs
    · exact SymbolTable.alike_addReference _ _ _
    · exact .refl _

theorem orderly_symbolValue (ctx : Context) {name : String} (hname : IsPlain name) (column : Nat) :
    Orderly ctx (fun r => KnownAfterFirst ctx r.2) (symbolValue ctx name column) := by
  intro s s' hs
  unfold symbolValue
  by_cases hpc : name = "P%"
  · simp only [hpc, if_true]
    exact .ok (fun _ => rfl) hs (.refl ctx s)
  simp only [hpc, if_false]
  -- both states see the same name with the same value
  have hvisible := hs.symbols.visibleName?_eq name ctx.frames
  have hvalue : (lookUp ctx.pass s.symbols ctx.frames name ⟨ctx.file, ctx.line, column⟩).1 =
      (lookUp ctx.pass s'.symbols ctx.frames name ⟨ctx.file, ctx.line, column⟩).1 := by
    unfold lookUp
    rw [← hvisible]
    cases visibleName? s.symbols name ctx.frames with
    | none => rfl
    | some full => exact hs.symbols.value?_eq full
  rw [← hvisible, ← hvalue]
  split
  · rename_i full value hfull hv
    have hfound : s.symbols.value? full = some value := by simpa [lookUp, hfull] using hv
    refine .ok (fun _ => rfl) ⟨alike_lookUp.symm.trans (hs.symbols.trans alike_lookUp), hs.random⟩
      ⟨alike_lookUp, [.found ctx.pass full value], rfl, fun n hn => ?_⟩
    obtain rfl := List.mem_singleton.mp hn
    exact ⟨name, full, value, rfl, hname, hfull, hfound⟩
  · split_ifs with hpass
    · exact .ok (fun h => absurd hpass h) hs (.refl ctx s)
    · exact .error hs (.refl ctx s)

/-- A token whose name, if it is one, is plain. -/
def HasPlainName : Token → Prop
  | .atom (.name name) _ => IsPlain name
  | _ => True

/-- How the text of an `EVAL` must be evaluated. -/
def OrderlyTexts (ctx : Context) (inner : TextEvaluator) : Prop :=
  ∀ text column, Orderly ctx (fun r => KnownAfterFirst ctx r.2) (inner text column)

theorem orderly_callValue {ctx : Context} {inner : TextEvaluator} (h : OrderlyTexts ctx inner)
    (f : Function) (arguments : List Value) (column : Nat) :
    Orderly ctx (fun r => KnownAfterFirst ctx r.2) (callValue inner ctx f arguments column) := by
  by_cases hf : f = .eval
  · rw [hf, callValue_eval]
    split
    · exact h _ _
    · exact orderly_throw _
  · intro s s' hs
    rw [callValue_of_ne hf, callValue_of_ne hf, ← hs.random]
    split
    · exact .ok (fun _ => rfl) ⟨hs.symbols, rfl⟩ ⟨.refl _, [], rfl, fun _ hn => by cases hn⟩
    · exact .error hs (.refl ctx s)

theorem KnownAfterFirst.and {ctx : Context} {a b : Bool} (ha : KnownAfterFirst ctx a)
    (hb : KnownAfterFirst ctx b) : KnownAfterFirst ctx (a && b) := fun h => by
  rw [ha h, hb h]
  rfl

theorem orderly_close {ctx : Context} {inner : TextEvaluator} (h : OrderlyTexts ctx inner)
    {known : Bool} (hknown : KnownAfterFirst ctx known) (pending : List Pending)
    (operands : List Operand) :
    Orderly ctx (fun st => KnownAfterFirst ctx st.known) (Stacks.close inner ctx known pending operands) := by
  unfold Stacks.close
  split
  · dsimp only
    split
    · exact orderly_throw _
    split
    · exact orderly_throw _
    exact orderly_bind (orderly_callValue h _ _ _) fun r hr => orderly_pure (hknown.and hr)
  · exact orderly_pure hknown
  · exact orderly_pure hknown

theorem orderly_nextArgument {ctx : Context} {known : Bool} (hknown : KnownAfterFirst ctx known)
    (column : Nat) (pending : List Pending) (operands : List Operand) :
    Orderly ctx (fun st => KnownAfterFirst ctx st.known)
      (Stacks.nextArgument known column pending operands) := by
  unfold Stacks.nextArgument
  split
  · exact orderly_pure hknown
  · exact orderly_throw _

theorem orderly_take {ctx : Context} {inner : TextEvaluator} (h : OrderlyTexts ctx inner)
    {st : Stacks} (hknown : KnownAfterFirst ctx st.known) {token : Token} (htoken : HasPlainName token) :
    Orderly ctx (fun st => KnownAfterFirst ctx st.known) (st.take inner ctx token) := by
  have hcollapse (ready : Pending → Bool) : Orderly ctx (fun _ => True)
      (Eval.ofExcept (collapse ready st.pending st.operands)) :=
    orderly_ofExcept fun _ _ => trivial
  cases token with
  | opening column => exact orderly_pure hknown
  | unary op column => exact orderly_pure hknown
  | call f column => exact orderly_pure hknown
  | atom a column =>
    have hatom : Orderly ctx (fun r => KnownAfterFirst ctx r.2) (atomOperand ctx column a) := by
      cases a with
      | literal value text => exact orderly_pure fun _ => rfl
      | counter => exact orderly_pure fun _ => rfl
      | now => exact orderly_pure fun _ => rfl
      | name name => exact orderly_bind (orderly_symbolValue ctx htoken column) fun r hr => orderly_pure hr
    exact orderly_bind hatom fun r hr => orderly_pure (hknown.and hr)
  | closing column => exact orderly_bind (hcollapse _) fun r _ => orderly_close h hknown _ _
  | comma column => exact orderly_bind (hcollapse _) fun r _ => orderly_nextArgument hknown _ _ _
  | binary op spelling column => exact orderly_bind (hcollapse _) fun r _ => orderly_pure hknown
  | bad problem => exact orderly_throw _

theorem orderly_takeAll {ctx : Context} {inner : TextEvaluator} (h : OrderlyTexts ctx inner) :
    ∀ (tokens : List Token) {st : Stacks}, KnownAfterFirst ctx st.known →
      (∀ token ∈ tokens, HasPlainName token) →
      Orderly ctx (fun st => KnownAfterFirst ctx st.known) (tokens.foldlM (Stacks.take inner ctx) st)
  | [], _, hknown, _ => orderly_pure hknown
  | token :: tokens, _, hknown, hnames => by
    rw [List.foldlM_cons]
    exact orderly_bind (orderly_take h hknown (hnames token List.mem_cons_self)) fun st hst =>
      orderly_takeAll h tokens hst fun t ht => hnames t (List.mem_cons_of_mem _ ht)

/-! ### Tokens -/

theorem hasPlainName_operand (x : Char) (c : Cursor) : HasPlainName (Token.operand x c).1 := by
  have hliteral (marks : Nat) (result : Except Fault (Value × Nat)) :
      HasPlainName (Token.ofLiteral c marks result).1 := by
    unfold Token.ofLiteral
    split <;> trivial
  unfold Token.operand
  dsimp only
  split_ifs
  · exact hliteral _ _
  · exact hliteral _ _
  · exact hliteral _ _
  · trivial
  · exact hliteral _ _
  · exact hliteral _ _
  · unfold Token.ofName
    split_ifs
    · trivial
    · exact isPlain_take_nameLength c.rest
  · trivial

theorem hasPlainName_of_next? {value : Bool} {depth : Nat} {c : Cursor} {token : Token} {n : Nat}
    (h : Token.next? value depth c = some (token, n)) : HasPlainName token := by
  unfold Token.next? at h
  split_ifs at h with hvalue
  · unfold Token.valueToken? at h
    split at h
    · cases h
    · split at h
      · obtain ⟨rfl, -⟩ := Prod.mk.inj (Option.some.inj h)
        trivial
      · split at h
        · obtain ⟨rfl, -⟩ := Prod.mk.inj (Option.some.inj h)
          trivial
        · obtain ⟨rfl, -⟩ := Prod.mk.inj (Option.some.inj h)
          trivial
        · split_ifs at h
          have hplain := hasPlainName_operand ‹Char› c
          rwa [Option.some.inj h] at hplain
  · unfold Token.operatorToken? at h
    split at h
    · cases h
    · split_ifs at h
      · obtain ⟨rfl, -⟩ := Prod.mk.inj (Option.some.inj h)
        trivial
      · obtain ⟨rfl, -⟩ := Prod.mk.inj (Option.some.inj h)
        trivial
      · obtain ⟨_, -, hop⟩ := Option.map_eq_some_iff.mp h
        obtain ⟨rfl, -⟩ := Prod.mk.inj hop
        trivial

theorem hasPlainName_of_mem_scanFrom : ∀ (steps : Nat) {value : Bool} {depth : Nat} {c : Cursor},
    ∀ token ∈ (Token.scanFrom steps value depth c).1, HasPlainName token
  | 0, _, _, _, _, h => by cases h
  | steps + 1, value, depth, c, token, h => by
    unfold Token.scanFrom at h
    dsimp only at h
    split at h
    · cases h
    · obtain rfl := List.mem_singleton.mp h
      trivial
    · rename_i next n _ hnext
      rcases List.mem_cons.mp h with rfl | h
      · exact hasPlainName_of_next? hnext
      · exact hasPlainName_of_mem_scanFrom steps token h

/-! ### Whole expressions -/

theorem orderly_evaluateWith {ctx : Context} {inner : TextEvaluator} (h : OrderlyTexts ctx inner)
    (c : Cursor) : Orderly ctx (fun e => KnownAfterFirst ctx e.known) (evaluateWith inner ctx c) :=
  orderly_bind (orderly_takeAll h _ (fun _ => rfl) (hasPlainName_of_mem_scanFrom _)) fun _ hst =>
    orderly_bind (P := fun _ => True) (orderly_ofExcept fun _ _ => trivial) fun _ _ =>
      orderly_pure hst

theorem orderly_evaluateText (ctx : Context) : ∀ allowance, OrderlyTexts ctx (evaluateText ctx allowance)
  | 0 => fun _ _ => orderly_throw _
  | allowance + 1 => fun text column => by
    refine orderly_relocate column ?_
    refine orderly_bind (orderly_evaluateWith (orderly_evaluateText ctx allowance) _) fun e he => ?_
    split
    · exact orderly_throw _
    · exact orderly_pure he

theorem orderly_evaluate (ctx : Context) (allowance : Nat) (c : Cursor) :
    Orderly ctx (fun e => KnownAfterFirst ctx e.known) (evaluate ctx allowance c) :=
  orderly_evaluateWith (orderly_evaluateText ctx allowance) c

section
variable {ctx : Context} {allowance : Nat} {c : Cursor} {s t : State}

/-- After the first pass the value of an expression is known. -/
theorem evaluate_known {e : Evaluated} (hpass : ctx.pass ≠ .first)
    (h : evaluate ctx allowance c s = .ok e t) : e.known = true := by
  have hends := orderly_evaluate ctx allowance c s s ⟨.refl _, rfl⟩
  rw [h] at hends
  cases hends with
  | ok hknown _ _ => exact hknown hpass

theorem evaluate_follows {e : Evaluated} (h : evaluate ctx allowance c s = .ok e t) :
    Follows ctx s t := by
  have hends := orderly_evaluate ctx allowance c s s ⟨.refl _, rfl⟩
  rw [h] at hends
  cases hends with
  | ok _ _ hfollows => exact hfollows

theorem evaluate_error_follows {problem : Problem}
    (h : evaluate ctx allowance c s = .error problem t) : Follows ctx s t := by
  have hends := orderly_evaluate ctx allowance c s s ⟨.refl _, rfl⟩
  rw [h] at hends
  cases hends with
  | error _ hfollows => exact hfollows

/-- States that are alike give an expression the same value and end alike. -/
theorem evaluate_ends_alike {s' : State} {e : Evaluated} (hs : s.Alike s')
    (h : evaluate ctx allowance c s = .ok e t) :
    ∃ t', evaluate ctx allowance c s' = .ok e t' ∧ t.Alike t' := by
  have hends := orderly_evaluate ctx allowance c s s' hs
  rw [h] at hends
  generalize hr : evaluate ctx allowance c s' = r at hends
  cases hends with
  | ok _ halike _ => exact ⟨_, rfl, halike⟩

end

end Expr
end Asm6502
