/-
# Arguments are evaluated once

A statement draws from the generator whenever an argument of it does. Some
statements read an argument in one way and, if it is not of the right kind, go back
and read it in another: an operand in brackets may be no indirect one, and where a
text may stand there may be a number. An instruction gives back what it has drawn
before it reads its operand again. A directive does not, so it draws twice for a
number that stands where a text may stand.

`Argues` says what evaluating the arguments of a statement comes to, each of them
once and from left to right. A statement that is executed leaves the generator as
that does and goes by the values that it gives, as long as a number in the place of
a text draws nothing.

Key definitions: `LineM.Argues`, `LineM.Amid`, `LineM.IsStill`, `LineM.GoesOnce`.
Key theorems: `LineM.Argues.unique`, `LineM.wp_optionalText_still`,
`LineM.wp_perform_once`, `LineM.statement_draws_once`.
-/
import Asm6502.Proofs.Instruction.Reservation
import Asm6502.Proofs.Walk.Skipping

namespace Asm6502

theorem Expr.evaluate_skipBlanks (ctx : Context) (n : Nat) (c : Cursor) :
    evaluate ctx n c.skipBlanks = evaluate ctx n c := by
  unfold evaluate evaluateWith
  rw [Cursor.skipBlanks_skipBlanks]

/-- The value that an argument counts as under a rule, given or left off. -/
def Rule.valueOf? (rule : Rule α) (convert : Value → Except Fault α) : Option Expr.Evaluated → Option α
  | none => rule.otherwise
  | some e => if e.known then (convert e.value).toOption else rule.standIn

namespace LineM

variable {env : Setting} {s t u : LineState} {α : Type}

/-! ### The arguments of a statement -/

/-- The arguments that are written from the cursor of a line on, up to a place, and
the state in which evaluating them leaves the line: one after the other and each of
them once. All but the first follow a comma. -/
inductive Argues (env : Setting) (s : LineState) : List Expr.Evaluated → Cursor → Expr.State → Prop
  | none : Argues env s [] s.cursor (evaluation s)
  | first {e : Expr.Evaluated} {st : Expr.State}
      (heval : Expr.evaluate (context env s) env.allowance.evals s.cursor (evaluation s) = .ok e st) :
      Argues env s [e] e.stop st
  | next {es : List Expr.Evaluated} {e : Expr.Evaluated} {c d : Cursor} {st st' : Expr.State}
      (h : Argues env s es c st) (hsome : es ≠ []) (hcomma : c.Passes [','] d)
      (heval : Expr.evaluate (context env s) env.allowance.evals d st = .ok e st') : Argues env s (es ++ [e]) e.stop st'

/-- What so many arguments come to is determined. -/
theorem Argues.unique {es es' : List Expr.Evaluated} {c c' : Cursor} {st st' : Expr.State} (h : Argues env s es c st)
    (h' : Argues env s es' c' st') (hlength : es'.length = es.length) : es' = es ∧ c' = c ∧ st' = st := by
  induction h generalizing es' c' st' with
  | none =>
    cases h' with
    | none => exact ⟨rfl, rfl, rfl⟩
    | first _ => cases hlength
    | next _ _ _ _ => simp at hlength
  | first heval =>
    cases h' with
    | none => cases hlength
    | first heval' =>
      cases heval.symm.trans heval'
      exact ⟨rfl, rfl, rfl⟩
    | next _ hsome _ _ =>
      rw [List.length_append, List.length_singleton, List.length_singleton] at hlength
      exact absurd (List.length_eq_zero_iff.mp (by omega)) hsome
  | next h hsome hcomma heval ih =>
    rw [List.length_append, List.length_singleton] at hlength
    cases h' with
    | none => simp at hlength
    | first _ =>
      rw [List.length_singleton] at hlength
      exact absurd (List.length_eq_zero_iff.mp (by omega)) hsome
    | next h' hsome' hcomma' heval' =>
      rw [List.length_append, List.length_singleton] at hlength
      obtain ⟨rfl, rfl, rfl⟩ := ih h' (by omega)
      obtain rfl := hcomma.eq hcomma'
      cases heval.symm.trans heval'
      exact ⟨rfl, rfl, rfl⟩

/-- The first argument is evaluated first. -/
theorem Argues.head {es : List Expr.Evaluated} {c : Cursor} {st : Expr.State} (h : Argues env s es c st)
    (hsome : es ≠ []) : ∃ e rest st', es = e :: rest ∧
      Expr.evaluate (context env s) env.allowance.evals s.cursor (evaluation s) = .ok e st' := by
  induction h with
  | none => exact absurd rfl hsome
  | first heval => exact ⟨_, [], _, rfl, heval⟩
  | next _ hbefore _ _ ih =>
    obtain ⟨e, rest, st', rfl, heval⟩ := ih hbefore
    exact ⟨e, _, st', rfl, heval⟩

/-- A line in the middle of a statement: the arguments `es` have been read, and
where evaluating them once leaves the state `st`, the line is in one like it. -/
structure Amid (env : Setting) (s : LineState) (es : List Expr.Evaluated) (st : Expr.State) (t : LineState) :
    Prop where
  argues : ∃ c, Argues env s es c st ∧ t.cursor.skipBlanks = c.skipBlanks
  run : ∃ after, st.Alike after ∧ t.run = (evaluated s after).run
  walk : t.walk = s.walk
  parts : t.parts.isEmpty = es.isEmpty

variable {es : List Expr.Evaluated} {st : Expr.State}

theorem amid_start (hparts : s.parts = #[]) : Amid env s [] (evaluation s) s where
  argues := ⟨s.cursor, .none, rfl⟩
  run := ⟨evaluation s, ⟨.refl _, rfl⟩, rfl⟩
  walk := rfl
  parts := by rw [hparts]; rfl

/-- Blanks do not matter between arguments. -/
theorem Amid.skipBlanks (h : Amid env s es st t) : Amid env s es st { t with cursor := t.cursor.skipBlanks } := by
  obtain ⟨c, hargues, hcursor⟩ := h.argues
  exact { h with argues := ⟨c, hargues, by rw [Cursor.skipBlanks_skipBlanks, hcursor]⟩ }

theorem Amid.atStatementEnd_start (h : Amid env s [] st t) :
    t.cursor.atStatementEnd = s.cursor.atStatementEnd := by
  obtain ⟨c, hargues, hcursor⟩ := h.argues
  obtain ⟨-, rfl, -⟩ := Argues.unique .none hargues rfl
  rw [← Cursor.atStatementEnd_skipBlanks, hcursor, Cursor.atStatementEnd_skipBlanks]

/-- Where the next argument stands if one follows: here, or after the comma. -/
def placeAfter (es : List Expr.Evaluated) (t : LineState) : Cursor :=
  if es = [] then t.cursor.skipBlanks else t.cursor.skipBlanks.skip 1

section
variable {e : Expr.Evaluated} {after : Expr.State}

/-- The next argument comes to what it comes to when each is evaluated once. -/
theorem Amid.argues_next (h : Amid env s es st t) (hcomma : es ≠ [] → t.cursor.skipBlanks.peek = some ',')
    (heval : Expr.evaluate (context env t) env.allowance.evals (placeAfter es t) (evaluation t) = .ok e after) :
    ∃ st', Argues env s (es ++ [e]) e.stop st' ∧ st'.Alike after ∧ st.symbols.Alike after.symbols := by
  obtain ⟨c, hargues, hcursor⟩ := h.argues
  obtain ⟨before, hbefore, hrun⟩ := h.run
  have hcontext : context env t = context env s := by
    unfold context
    rw [hrun, h.walk]
    rfl
  have hevaluation : evaluation t = before := by
    unfold evaluation
    rw [hrun]
    rfl
  rw [hcontext, hevaluation] at heval
  have hfollows := hbefore.symbols.trans (Expr.evaluate_follows heval).symbols
  obtain ⟨st', heval', halike⟩ := Expr.evaluate_ends_alike ⟨hbefore.symbols.symm, hbefore.random.symm⟩ heval
  have hends : st'.Alike after := ⟨halike.symbols.symm, halike.random.symm⟩
  unfold placeAfter at heval'
  split_ifs at heval' with hsome
  · subst hsome
    obtain ⟨-, rfl, rfl⟩ := Argues.unique .none hargues rfl
    rw [hcursor, Expr.evaluate_skipBlanks] at heval'
    exact ⟨st', .first heval', hends, hfollows⟩
  · have hpasses : c.Passes [','] (t.cursor.skipBlanks.skip 1) := by
      rw [Cursor.passes_one_iff, ← hcursor]
      exact ⟨hcomma hsome, rfl⟩
    exact ⟨st', .next hargues hsome hpasses heval', hends, hfollows⟩

theorem Amid.evaluated_run (h : Amid env s es st t) (after : Expr.State) :
    (evaluated t after).run = (evaluated s after).run := by
  obtain ⟨before, -, hrun⟩ := h.run
  unfold evaluated
  rw [hrun]
  rfl

/-- The next argument has been read. -/
theorem Amid.push (h : Amid env s es st t) (hcomma : es ≠ [] → t.cursor.skipBlanks.peek = some ',')
    (heval : Expr.evaluate (context env t) env.allowance.evals (placeAfter es t) (evaluation t) = .ok e after)
    (node : Node) : ∃ st', Amid env s (es ++ [e]) st'
      { evaluated t after with cursor := e.stop, parts := t.parts.push node } := by
  obtain ⟨st', hargues, halike, -⟩ := h.argues_next hcomma heval
  refine ⟨st', ⟨e.stop, hargues, rfl⟩, ⟨after, halike, h.evaluated_run after⟩, h.walk, ?_⟩
  simp

end

/-! ### Reading one argument -/

theorem wp_take {a : Argument α} {rule : Rule α} {Q : α → LineState → Prop} {E : Stop → LineState → Prop}
    (hfound : ∀ x, a.reading = .found x → Q x s) (hundefined : ∀ x, a.reading = .undefined → rule.standIn = some x → Q x s)
    (hmissing : ∀ x, a.reading = .missing → rule.otherwise = some x → Q x s) (hE : ∀ stop, E stop s) :
    wp (a.take rule) env s Q E := by
  unfold Argument.take
  split
  · rename_i x hx
    split
    · exact hE _
    · exact hfound x hx
  · rename_i hx
    split
    · rename_i x hstand
      exact hundefined x hx hstand
    · exact hE _
  · rename_i hx
    split
    · rename_i x hother
      exact hmissing x hx hother
    · exact hE _

/-- What reading an argument may add: none, where the statement ends, or one. -/
structure Adds (t : LineState) (more : List Expr.Evaluated) (u : LineState) : Prop where
  ends : t.cursor.atStatementEnd = true → more = []
  short : more = [] ∧ u.cursor.atStatementEnd = true ∨ ∃ e, more = [e]

/-- An argument is read, or none is left. -/
theorem wp_argument_amid {convert : Value → Except Fault α} {rule : Rule α} (h : Amid env s es st t)
    {Q : Argument α → α → LineState → Prop}
    (hQ : ∀ a x more st' u, rule.valueOf? convert more.head? = some x → Amid env s (es ++ more) st' u → Adds t more u →
      Q a x u) :
    wp (argument convert) env t (fun a u => wp (a.take rule) env u (Q a) fun _ _ => True) fun _ _ => True := by
  unfold argument
  simp only [wp_bind, wp_atEnd, wp_ite, Cursor.atStatementEnd_skipBlanks]
  split_ifs with hend
  · simp only [wp_column, wp_pure]
    refine wp_take (fun _ h => by cases h) (fun _ h _ => by cases h) (fun a _ ha => ?_) fun _ => trivial
    have hamid : Amid env s (es ++ []) st { t with cursor := t.cursor.skipBlanks } := by
      rw [List.append_nil]
      exact h.skipBlanks
    exact hQ _ a [] st _ ha hamid ⟨fun _ => rfl, .inl ⟨rfl, by simpa using hend⟩⟩
  · -- what follows the comma, where there has to be one, is read in one way
    have hread (column : Nat) (hcomma : es ≠ [] → t.cursor.skipBlanks.peek = some ',') (e : Expr.Evaluated)
        (after : Expr.State)
        (heval : Expr.evaluate (context env t) env.allowance.evals (placeAfter es t) (evaluation t) = .ok e after) :
        if e.known = true then
          (∀ a, convert e.value = .ok a → wp (Argument.take rule ⟨column, .found a⟩) env
            { evaluated t after with cursor := e.stop, parts := t.parts.push e.node } (Q ⟨column, .found a⟩)
            fun _ _ => True) ∧
          ∀ fault, convert e.value = .error fault → True
        else wp (Argument.take rule ⟨column, .undefined⟩) env
          { evaluated t after with cursor := e.stop, parts := t.parts.push e.node } (Q ⟨column, .undefined⟩)
          fun _ _ => True := by
      obtain ⟨st', hamid⟩ := h.push hcomma heval e.node
      have hadds : Adds t [e] { evaluated t after with cursor := e.stop, parts := t.parts.push e.node } :=
        ⟨fun h => absurd h hend, .inr ⟨e, rfl⟩⟩
      split_ifs with hknown
      · refine ⟨fun a ha => wp_take (fun x hx => ?_) (fun _ h _ => by cases h) (fun _ h _ => by cases h) fun _ => trivial,
          fun _ _ => trivial⟩
        cases hx
        refine hQ _ _ [e] st' _ ?_ hamid hadds
        simp [Rule.valueOf?, hknown, ha, Except.toOption]
      · refine wp_take (fun _ h => by cases h) (fun x _ hx => hQ _ _ [e] st' _ ?_ hamid hadds)
          (fun _ h _ => by cases h) fun _ => trivial
        simp [Rule.valueOf?, hknown, hx]
    simp only [wp_get, wp_expectComma, wp_skipBlanks, wp_column, wp_evaluate, wp_pushPart, wp_pure, wp_ofFault,
      Cursor.skipBlanks_skipBlanks]
    split_ifs with hparts hcomma
    · have hsome : es ≠ [] := by
        rintro rfl
        rw [h.parts] at hparts
        cases hparts
      refine ⟨fun e after heval => ?_, fun _ _ _ => trivial⟩
      rw [Expr.evaluate_skipBlanks] at heval
      refine hread _ (fun _ => by simpa using hcomma) e after ?_
      rw [placeAfter, if_neg hsome]
      exact heval
    · have hnone : es = [] := by
        rw [h.parts] at hparts
        simpa using hparts
      refine ⟨fun e after heval => ?_, fun _ _ _ => trivial⟩
      refine hread _ (absurd hnone) e after ?_
      rw [placeAfter, if_pos hnone]
      exact heval

/-- Whether a number that stands where a text may stand, after so many arguments,
draws nothing. -/
def IsStill (env : Setting) (s : LineState) (count : Nat) : Prop :=
  ∀ es e c st st', es.length = count → Argues env s es c st → Argues env s (es ++ [e]) e.stop st' →
    (∀ text, e.value ≠ .str text) → st'.random = st.random

/-- A text is read where one stands. Where a number does, nothing but the cursor is
as it was. -/
theorem wp_optionalText_amid (h : Amid env s es st t) {Q : Option String → LineState → Prop}
    (hnone : ∀ u, Amid env s es st u → t.cursor.atStatementEnd = true ∨ es ≠ [] → Q none u)
    (hnumber : ∀ e st' after, (es ≠ [] → t.cursor.skipBlanks.peek = some ',') → Argues env s (es ++ [e]) e.stop st' →
      (∀ text, e.value ≠ .str text) → st'.random = after.random → st.symbols.Alike after.symbols →
      Q none (evaluated t after))
    (hsome : ∀ text e st' u, e.value = .str text → Amid env s (es ++ [e]) st' u → Q (some text) u) :
    wp optionalText env t Q fun _ _ => True := by
  have htext (hcomma : es ≠ [] → t.cursor.skipBlanks.peek = some ',') {e : Expr.Evaluated} {after : Expr.State}
      (heval : Expr.evaluate (context env t) env.allowance.evals (placeAfter es t) (evaluation t) = .ok e after)
      {text : String} (hvalue : e.value = .str text) :
      Q (some text) { evaluated t after with cursor := e.stop, parts := t.parts.push e.node } := by
    obtain ⟨st', hamid⟩ := h.push hcomma heval e.node
    exact hsome text e st' _ hvalue hamid
  have hnumber (hcomma : es ≠ [] → t.cursor.skipBlanks.peek = some ',') {e : Expr.Evaluated} {after : Expr.State}
      (heval : Expr.evaluate (context env t) env.allowance.evals (placeAfter es t) (evaluation t) = .ok e after)
      {n : Float} (hvalue : e.value = .num n) : Q none (evaluated t after) := by
    obtain ⟨st', hargues, halike, hsymbols⟩ := h.argues_next hcomma heval
    exact hnumber e st' after hcomma hargues (by rw [hvalue]; nofun) halike.random hsymbols
  have hfirst : t.parts.isEmpty = true ↔ es = [] := by rw [h.parts, List.isEmpty_iff]
  unfold optionalText
  simp only [wp_bind, wp_getCursor, wp_get, wp_atEnd, wp_ite, Cursor.atStatementEnd_skipBlanks, wp_pure, wp_peek,
    wp_advance, wp_evaluate]
  split_ifs with hend hcomma hsomes
  · exact hnone _ h.skipBlanks (.inl hend)
  · refine hnone _ h.skipBlanks (.inr fun hes => ?_)
    rw [hfirst.mpr hes] at hcomma
    cases hcomma
  · have hes : es ≠ [] := fun hes => by
      rw [hfirst.mpr hes] at hsomes
      cases hsomes
    have hpeek : t.cursor.skipBlanks.peek = some ',' := by
      rw [hsomes, Bool.true_and] at hcomma
      simpa using hcomma
    refine ⟨fun e after heval => ?_, fun _ _ _ => trivial⟩
    have heval : Expr.evaluate (context env t) env.allowance.evals (placeAfter es t) (evaluation t) = .ok e after := by
      rw [placeAfter, if_neg hes]
      exact heval
    split
    · rename_i text hvalue
      exact htext (fun _ => hpeek) heval hvalue
    · rename_i n hvalue
      exact hnumber (fun _ => hpeek) heval hvalue
  · have hes : es = [] := hfirst.mp (by simpa using hsomes)
    refine ⟨fun e after heval => ?_, fun _ _ _ => trivial⟩
    have heval : Expr.evaluate (context env t) env.allowance.evals (placeAfter es t) (evaluation t) = .ok e after := by
      rw [placeAfter, if_pos hes]
      exact heval
    split
    · rename_i text hvalue
      exact htext (absurd hes) heval hvalue
    · rename_i n hvalue
      exact hnumber (absurd hes) heval hvalue

/-- Where a number stands that draws nothing, it will be read as if for the first
time. -/
theorem wp_optionalText_still (h : Amid env s es st t) (hstill : IsStill env s es.length)
    {Q : Option String → LineState → Prop}
    (hnone : ∀ u, Amid env s es st u → (t.cursor.atStatementEnd = true ∨ es ≠ [] ∨
      ∃ e st', Argues env s (es ++ [e]) e.stop st' ∧ ∀ text, e.value ≠ .str text) → Q none u)
    (hsome : ∀ text e st' u, e.value = .str text → Amid env s (es ++ [e]) st' u → Q (some text) u) :
    wp optionalText env t Q fun _ _ => True := by
  refine wp_optionalText_amid h (fun u hu hwhy => hnone u hu (hwhy.imp_right .inl)) ?_ hsome
  intro e st' after _ hargues hnotext hafter hsymbols
  obtain ⟨c, hbefore, hcursor⟩ := h.argues
  have hrandom := hstill es e c st st' rfl hbefore hargues hnotext
  have hamid : Amid env s es st (evaluated t after) :=
    ⟨⟨c, hbefore, hcursor⟩, ⟨after, ⟨hsymbols, hrandom.symm.trans hafter⟩, h.evaluated_run after⟩, h.walk, h.parts⟩
  exact hnone _ hamid (.inr (.inr ⟨e, st', hargues, hnotext⟩))

/-! ### `SAVE` -/

/-- The text that comes first among arguments, if one does. -/
def leadingText? : List Expr.Evaluated → Option String
  | [] => none
  | e :: _ => e.value.text.toOption

/-- Reads the addresses of a `SAVE`. -/
def addresses : LineM (Int × Int × Int × Int) := do
  let first ← (← integer).take (Rule.address.tolerating 0)
  let stop ← (← integer).take (Rule.addressEnd.tolerating 0)
  let exec ← (← integer).take (Rule.address.defaulting first)
  let reload ← (← integer).take (Rule.address.defaulting first)
  expectEnd
  return (first, stop, exec, reload)

/-- Asks for the part of memory that a `SAVE` names. -/
def fileAway (start : Nat) (name : Option String) (x : Int × Int × Int × Int) : LineM Unit := do
  match name.or (← getRun).options.defaultOutput with
  | none => fail .noAnonymousSave start
  | some name =>
    if ← isSecondPass then
      if x.2.1 < x.1 then fail .outOfRange start
      let save :=
        ⟨name, x.1.toNat, x.2.1.toNat, x.2.2.1.toNat, x.2.2.2.toNat, ← position start⟩
      modifyRun fun r => { r with saves := r.saves.push save }

theorem save_eq (start : Nat) : save start = (do
    let name ← optionalText
    let x ← addresses
    fileAway start name x) := by
  simp only [addresses, bind_assoc, pure_bind]
  rfl

/-- Whether numbers count as the addresses of a `SAVE`. -/
structure Addresses (numbers : List Expr.Evaluated) (x : Int × Int × Int × Int) : Prop where
  first : (Rule.address.tolerating 0).valueOf? Value.integer numbers[0]? = some x.1
  stop : (Rule.addressEnd.tolerating 0).valueOf? Value.integer numbers[1]? = some x.2.1
  exec : (Rule.address.defaulting x.1).valueOf? Value.integer numbers[2]? = some x.2.2.1
  reload : (Rule.address.defaulting x.1).valueOf? Value.integer numbers[3]? = some x.2.2.2

theorem wp_addresses (h : Amid env s es st t) :
    wp addresses env t (fun x u => ∃ numbers st', Amid env s (es ++ numbers) st' u ∧ numbers ≠ [] ∧
      t.cursor.atStatementEnd ≠ true ∧ Addresses numbers x ∧ u.cursor.atStatementEnd = true) fun _ _ => True := by
  -- an address that has to be given is given
  have hgiven {rule : Rule Int} {n : Int} (hrule : rule.otherwise = none) {v w : LineState} {more : List Expr.Evaluated}
      (hvalue : rule.valueOf? Value.integer more.head? = some n) (hadds : Adds v more w) : ∃ e, more = [e] := by
    rcases hadds.short with ⟨rfl, -⟩ | hone
    · rw [List.head?_nil, Rule.valueOf?, hrule] at hvalue
      cases hvalue
    · exact hone
  unfold addresses integer
  simp only [wp_bind]
  refine wp_argument_amid h fun _ first m₁ st₁ t₁ hfirst h₁ hadds₁ => ?_
  refine wp_argument_amid h₁ fun _ stop m₂ st₂ t₂ hstop h₂ hadds₂ => ?_
  refine wp_argument_amid h₂ fun _ exec m₃ st₃ t₃ hexec h₃ hadds₃ => ?_
  refine wp_argument_amid h₃ fun _ reload m₄ st₄ t₄ hreload h₄ hadds₄ => ?_
  refine wp_expectEnd (fun hend => ?_) fun _ => trivial
  obtain ⟨e₁, rfl⟩ := hgiven rfl hfirst hadds₁
  obtain ⟨e₂, rfl⟩ := hgiven rfl hstop hadds₂
  have hend : t₄.cursor.atStatementEnd = true := by simpa using hend
  refine ⟨[e₁] ++ [e₂] ++ m₃ ++ m₄, st₄, ?_, by simp, fun h => ?_, ⟨hfirst, hstop, ?_, ?_⟩, by simpa using hend⟩
  · simpa using h₄.skipBlanks
  · cases hadds₁.ends h
  · rcases hadds₃.short with ⟨rfl, hends⟩ | ⟨e₃, rfl⟩
    · rw [hadds₄.ends hends]
      exact hexec
    · exact hexec
  · rcases hadds₃.short with ⟨rfl, hends⟩ | ⟨e₃, rfl⟩
    · have hnone := hadds₄.ends hends
      subst hnone
      exact hreload
    · rcases hadds₄.short with ⟨rfl, -⟩ | ⟨e₄, rfl⟩
      · exact hreload
      · exact hreload

/-- A statement has asked for a part of memory as its arguments say. -/
def Saved (env : Setting) (s : LineState) (start : Nat) (es : List Expr.Evaluated) (t : LineState) : Prop :=
  ∃ name x, (leadingText? es).or s.run.options.defaultOutput = some name ∧
    Addresses (if (leadingText? es).isSome then es.tail else es) x ∧
    t.run.saves = if s.run.pass = .second then s.run.saves.push ⟨name, x.1.toNat, x.2.1.toNat, x.2.2.1.toNat,
      x.2.2.2.toNat, s.walk.buffer.position env.index start⟩ else s.run.saves

/-- A statement has been executed on its arguments, each of them evaluated once:
`Goes` says how it goes by them. -/
def GoesOnce (env : Setting) (s : LineState) (Goes : List Expr.Evaluated → LineState → Prop) (t : LineState) : Prop :=
  ∃ es c st, Argues env s es c st ∧ c.atStatementEnd = true ∧ t.run.random = st.random ∧ Goes es t

theorem wp_fileAway {start : Nat} {name : Option String} {x : Int × Int × Int × Int} :
    wp (fileAway start name x) env s (fun _ t => t.run.random = s.run.random ∧
      ∃ file, name.or s.run.options.defaultOutput = some file ∧
        t.run.saves = if s.run.pass = .second then s.run.saves.push ⟨file, x.1.toNat, x.2.1.toNat, x.2.2.1.toNat,
          x.2.2.2.toNat, s.walk.buffer.position env.index start⟩ else s.run.saves) fun _ _ => True := by
  unfold fileAway
  simp only [wp_bind, wp_getRun]
  split
  · trivial
  · rename_i file hfile
    simp only [wp_bind, wp_isSecondPass, wp_ite, wp_fail, wp_position, wp_modifyRun, wp_pure, beq_iff_eq]
    split_ifs with hsecond
    · exact ⟨trivial, file, hfile, rfl⟩
    · exact ⟨trivial, file, hfile, rfl⟩

/-- What follows the name of a `SAVE`, if it has one. -/
theorem wp_save_addresses {start : Nat} {name : Option String} {lead : List Expr.Evaluated}
    (h : Amid env s lead st t)
    (hlead : t.cursor.atStatementEnd ≠ true → ∀ numbers c st', numbers ≠ [] → Argues env s (lead ++ numbers) c st' →
      leadingText? (lead ++ numbers) = name ∧
        (if name.isSome then (lead ++ numbers).tail else lead ++ numbers) = numbers) :
    wp addresses env t (fun x u => wp (fileAway start name x) env u
      (fun _ t => GoesOnce env s (Saved env s start) t) fun _ _ => True) fun _ _ => True := by
  refine wp_imp (wp_addresses h) ?_
  rintro x u ⟨numbers, st', hu, hsome, hopen, haddresses, hend⟩
  obtain ⟨c, hargues, hcursor⟩ := hu.argues
  obtain ⟨after, halike, hrun⟩ := hu.run
  obtain ⟨hname, hnumbers⟩ := hlead hopen numbers c st' hsome hargues
  have hstop : c.atStatementEnd = true := by
    rw [← Cursor.atStatementEnd_skipBlanks, ← hcursor, Cursor.atStatementEnd_skipBlanks]
    exact hend
  refine wp_imp wp_fileAway ?_
  rintro - t ⟨hrandom, file, hfile, hsaves⟩
  rw [hrun] at hrandom hfile hsaves
  rw [hu.walk] at hsaves
  refine ⟨lead ++ numbers, c, st', hargues, hstop, hrandom.trans halike.random.symm, file, x, ?_, ?_, hsaves⟩
  · rw [hname]
    exact hfile
  · rw [hname, hnumbers]
    exact haddresses

/-- A `SAVE` evaluates its arguments once, if a number that comes first draws
nothing. -/
theorem wp_save_once {start : Nat} (hparts : s.parts = #[]) (hstill : IsStill env s 0) :
    wp (save start) env s (fun _ t => GoesOnce env s (Saved env s start) t) fun _ _ => True := by
  rw [save_eq]
  simp only [wp_bind]
  refine wp_optionalText_still (amid_start hparts) hstill (fun u hu hwhy => ?_) fun text e st' u htext hu => ?_
  · refine wp_save_addresses hu fun hopen numbers c st' hsome hargues => ⟨?_, rfl⟩
    obtain ⟨e, rest, st₁, rfl, heval⟩ := hargues.head hsome
    rcases hwhy with hend | hnil | ⟨e', st₂, hargues', hnotext⟩
    · exact absurd (hu.atStatementEnd_start.trans hend) hopen
    · exact absurd rfl hnil
    · obtain ⟨he, -, -⟩ := Argues.unique (.first heval) hargues' rfl
      obtain rfl := List.singleton_inj.mp he
      cases hvalue : e'.value with
      | str text => exact absurd hvalue (hnotext text)
      | num n => simp [leadingText?, hvalue, Value.text, Except.toOption]
  · refine wp_save_addresses hu fun _ numbers _ _ _ _ => ⟨?_, rfl⟩
    simp [leadingText?, htext, Value.text, Except.toOption]

/-! ### `PUT` directives -/

/-- A statement has looked for a file by the name that its first argument gives. -/
def Named (s : LineState) (es : List Expr.Evaluated) (t : LineState) : Prop :=
  ∃ name, Rule.any.valueOf? Value.text es.head? = some name ∧
    t.run.lookups = s.run.lookups.push ((s.run.filePath? s.walk.buffer.file).getD ⟨""⟩, name)

theorem wp_resolveFile {name : String} {column : Nat} {kind : LinkKind} :
    wp (resolveFile name column kind) env s (fun _ t => t.run.random = s.run.random ∧
      t.run.lookups = s.run.lookups.push ((s.run.filePath? s.walk.buffer.file).getD ⟨""⟩, name)) fun _ _ => True := by
  unfold resolveFile
  simp only [wp_bind, wp_getRun, wp_getWalk, wp_modifyRun, wp_read]
  split
  · trivial
  · simp only [wp_bind, wp_isSecondPass, wp_ite, wp_position, wp_modifyRun, wp_pure]
    split_ifs <;> exact ⟨trivial, trivial⟩

/-- A statement that has read its arguments looks for the file that the first one
names. -/
theorem Amid.goesOnce {name : String} {column : Nat} {kind : LinkKind} (h : Amid env s es st t)
    (hname : Rule.any.valueOf? Value.text es.head? = some name) :
    wp expectEnd env t (fun _ u => wp (resolveFile name column kind) env u
      (fun _ v => GoesOnce env s (Named s) v) fun _ _ => True) fun _ _ => True := by
  refine wp_expectEnd (fun hend => ?_) fun _ => trivial
  obtain ⟨c, hargues, hcursor⟩ := h.argues
  obtain ⟨after, halike, hrun⟩ := h.run
  refine wp_imp wp_resolveFile ?_
  rintro - v ⟨hrandom, hlookups⟩
  dsimp only at hrandom hlookups
  rw [hrun] at hrandom hlookups
  rw [h.walk] at hlookups
  refine ⟨es, c, st, hargues, ?_, hrandom.trans halike.random.symm, name, hname, hlookups⟩
  rw [← Cursor.atStatementEnd_skipBlanks, ← hcursor]
  exact hend

/-- `PUTFILE` and `PUTTEXT` evaluate their arguments once, if a number that comes
after the name draws nothing. -/
theorem wp_putFile_once {kind : LinkKind} (hparts : s.parts = #[]) (hstill : IsStill env s 1) :
    wp (putFile kind) env s (fun _ t => GoesOnce env s (Named s) t) fun _ _ => True := by
  unfold putFile text integer
  simp only [wp_bind]
  refine wp_argument_amid (amid_start hparts) fun a name more st t hname h hadds => ?_
  rcases hadds.short with ⟨rfl, -⟩ | ⟨e, rfl⟩
  · cases hname
  have hrest {es : List Expr.Evaluated} {st : Expr.State} {u : LineState} (h : Amid env s (e :: es) st u) :
      wp (argument Value.integer) env u (fun b v => wp (b.take (Rule.address.tolerating 0)) env v (fun first v =>
        wp (argument Value.integer) env v (fun b v => wp (b.take (Rule.address.defaulting first)) env v (fun _ v =>
          wp expectEnd env v (fun _ v => wp (resolveFile name a.column kind) env v
            (fun _ v => GoesOnce env s (Named s) v) fun _ _ => True) fun _ _ => True) fun _ _ => True)
          fun _ _ => True) fun _ _ => True) fun _ _ => True := by
    refine wp_argument_amid h fun _ _ _ _ _ _ h _ => wp_argument_amid h fun _ _ _ _ _ _ h _ => ?_
    exact h.goesOnce hname
  exact wp_optionalText_still h hstill (fun _ h _ => hrest h) fun _ _ _ _ _ h => hrest h

/-- `PUTBASIC` evaluates its arguments once. A number after the name is never
executed. -/
theorem wp_putBasic_once (hparts : s.parts = #[]) :
    wp putBasic env s (fun _ t => GoesOnce env s (Named s) t) fun _ _ => True := by
  unfold putBasic text
  simp only [wp_bind]
  refine wp_argument_amid (amid_start hparts) fun a name more st t hname h hadds => ?_
  rcases hadds.short with ⟨rfl, -⟩ | ⟨e, rfl⟩
  · cases hname
  refine wp_optionalText_amid h (fun u hu _ => hu.goesOnce hname) ?_ fun _ _ _ _ _ hu => hu.goesOnce hname
  intro e' st' after hcomma _ _ _ _
  have hpasses : t.cursor.Passes [','] (t.cursor.skipBlanks.skip 1) :=
    Cursor.passes_one_iff.mpr ⟨hcomma (List.cons_ne_nil _ _), rfl⟩
  refine wp_expectEnd (fun hend => absurd hend ?_) fun _ => trivial
  change ¬ t.cursor.skipBlanks.atStatementEnd = true
  rw [Cursor.atStatementEnd_skipBlanks]
  exact hpasses.not_atStatementEnd (by simp [isStatementEnd])

/-! ### All of them -/

/-- A line where so many characters of a statement have been read. -/
def past (n : Nat) (s : LineState) : LineState := { s with cursor := s.cursor.skip n, parts := #[] }

/-- The directives with a place for a text that may be left off. -/
def textual : List Directive := [.save, .putFile, .putText, .putBasic]

/-- After how many arguments a directive may go on with a number or a text. -/
def choice? : Directive → Option Nat
  | .save => some 0
  | .putFile | .putText => some 1
  | _ => none

/-- How a textual directive goes by its arguments. -/
def Goes (d : Directive) (env : Setting) (s : LineState) (start : Nat) : List Expr.Evaluated → LineState → Prop :=
  if d = .save then Saved env s start else Named s

theorem wp_perform_once {d : Directive} {start : Nat} (hd : d ∈ textual) (hparts : s.parts = #[])
    (hstill : ∀ n, choice? d = some n → IsStill env s n) :
    wp (perform d start) env s (fun _ t => GoesOnce env s (Goes d env s start) t) fun _ _ => True := by
  simp only [textual, List.mem_cons, List.not_mem_nil, or_false] at hd
  rcases hd with rfl | rfl | rfl | rfl
  · exact wp_save_once hparts (hstill 0 rfl)
  · exact wp_putFile_once hparts (hstill 1 rfl)
  · exact wp_putFile_once hparts (hstill 1 rfl)
  · exact wp_putBasic_once hparts

/-- The operand of an instruction has been evaluated once, and the instruction is the
one with that operand. -/
def OperandOnce (m : Mnemonic) (env : Setting) (s t : LineState) : Prop :=
  ∃ a known, Drawn env s a t ∧ Reads m env s a ∧ Encoded m known s.run.code a t

theorem wp_instruction_once {m : Mnemonic} {start : Nat} (hm : m ∈ Mnemonic.table) :
    wp (instruction m start) env s (fun _ t => OperandOnce m env s t) fun _ _ => True := by
  unfold instruction
  rw [wp_andThen]
  refine wp_mono (wp_operand_once hm) (fun _ t h => ?_) fun _ _ _ => trivial
  obtain ⟨a, known, hdrawn, hreads, -, -, hencoded⟩ := h
  exact ⟨a, known, ⟨hdrawn.number, hdrawn.bare⟩, hreads, hencoded⟩

/-- The mnemonic of a statement that is an instruction and is executed. -/
def mnemonic? (s : LineState) : Option Mnemonic :=
  if s.cursor.atAssignment || !s.walk.isLive || (Directive.find? s.cursor.rest).isSome then none
  else Mnemonic.find? s.cursor.rest s.run.code.cpu

theorem mem_table_of_mnemonic? {m : Mnemonic} (h : mnemonic? s = some m) : m ∈ Mnemonic.table := by
  unfold mnemonic? Mnemonic.find? at h
  split_ifs at h
  exact List.mem_of_find?_eq_some (Option.filter_eq_some_iff.mp h).1

theorem wp_statement_mnemonic {m : Mnemonic} (h : mnemonic? s = some m) {Q : Bool → LineState → Prop}
    {E : Stop → LineState → Prop}
    (hwp : wp (instruction m s.cursor.column) env (past 3 s) (fun _ t => Q true t) E) : wp statement env s Q E := by
  unfold mnemonic? at h
  split_ifs at h with hnone
  simp only [Bool.or_eq_true, Bool.not_eq_true', not_or, Bool.not_eq_true, Bool.not_eq_false,
    Option.isSome_eq_false_iff, Option.isNone_iff_eq_none] at hnone
  obtain ⟨⟨hassignment, hlive⟩, hfind⟩ := hnone
  unfold statement
  simp only [wp_bind, wp_modify, wp_getCursor, wp_getWalk]
  rw [if_neg (by simp [hassignment]), hfind]
  dsimp only
  rw [if_pos hlive]
  unfold operation
  simp only [wp_bind, wp_getCursor, wp_getRun, h, wp_advance]
  exact hwp

/-- **Going back never draws twice**, as long as a number draws nothing that stands
where a text may stand. An instruction that is executed leaves the generator as
evaluating its operand once does, and is written with the number that this gives.
A `SAVE`, `PUTFILE`, `PUTTEXT` or `PUTBASIC` that is executed leaves the generator as
evaluating its arguments does, each once and from left to right, and goes by the
values that this gives. -/
theorem statement_draws_once {goesOn : Bool} (hrun : statement env s = .ok goesOn t) :
    (∀ m, mnemonic? s = some m → OperandOnce m env (past 3 s) t) ∧
    ∀ spelling, ∀ d ∈ textual, directive? s = some d → Directive.find? s.cursor.rest = some (spelling, d) →
      (∀ n, choice? d = some n → IsStill env (past spelling.length s) n) →
      GoesOnce env (past spelling.length s) (Goes d env (past spelling.length s) s.cursor.column) t := by
  refine ⟨fun m hm => ?_, fun spelling d hd hdirective hfind hstill => ?_⟩
  · have hstatement : wp statement env s (fun _ t => OperandOnce m env (past 3 s) t) fun _ _ => True :=
      wp_statement_mnemonic hm (wp_instruction_once (mem_table_of_mnemonic? hm))
    have hafter := of_wp_ok hstatement hrun
    exact hafter
  · have hstatement : wp statement env s (fun _ t => GoesOnce env (past spelling.length s)
        (Goes d env (past spelling.length s) s.cursor.column) t) fun _ _ => True := by
      apply wp_statement_directive hdirective hfind
      refine wp_imp (wp_perform_once hd rfl hstill) fun _ u h nodes => ?_
      obtain ⟨es, c, st, hargues, hend, hrandom, hgoes⟩ := h
      refine ⟨es, c, st, hargues, hend, hrandom, ?_⟩
      unfold Goes at hgoes ⊢
      split_ifs at hgoes ⊢ <;> exact hgoes
    have hafter := of_wp_ok hstatement hrun
    exact hafter

/-- A line in the second pass where a `SAVE` needs no name. -/
def savingLine (text : String) : LineState :=
  let line := bareLine text
  { line with run := { line.run with options.defaultOutput := some "out" } }

/-- What a statement that is executed leaves of the generator. -/
def leaves? (s : LineState) : Option Random :=
  match statement bareSetting s with
  | .ok _ t => some t.run.random
  | .error _ _ => none

theorem exists_of_leaves? {random : Random} (h : leaves? s = some random) :
    ∃ goesOn t, statement bareSetting s = .ok goesOn t ∧ t.run.random = random := by
  unfold leaves? at h
  split at h
  · rename_i goesOn t hrun
    exact ⟨goesOn, t, hrun, Option.some.inj h⟩
  · cases h

/-- What the first argument leaves of the generator. -/
def firstLeaves? (s : LineState) : Option Random :=
  match Expr.evaluate (context bareSetting s) bareSetting.allowance.evals s.cursor (evaluation s) with
  | .ok _ st => some st.random
  | .error _ _ => none

theorem isStill_of_firstLeaves? (h : firstLeaves? s = some s.run.random) : IsStill bareSetting s 0 := by
  intro es e c st st' hlength hbefore hargues _
  obtain rfl := List.length_eq_zero_iff.mp hlength
  obtain ⟨-, -, rfl⟩ := Argues.unique .none hbefore rfl
  obtain ⟨e', rest, st₁, he, heval⟩ := hargues.head (by simp)
  obtain ⟨rfl, rfl⟩ := List.cons.inj he
  obtain ⟨-, -, rfl⟩ := Argues.unique (.first heval) hargues rfl
  unfold firstLeaves? at h
  rw [heval] at h
  exact Option.some.inj h

/-- A number that draws nothing, and one that draws. -/
def drawingSample : LineState := savingLine "SAVE 0,RND(16)"

/-- The number that draws is drawn once. -/
theorem statement_draws_once_save :
    ∃ goesOn t es c st, statement bareSetting drawingSample = .ok goesOn t ∧
      Argues bareSetting (past 4 drawingSample) es c st ∧ c.atStatementEnd = true ∧ t.run.random = st.random ∧
      t.run.random = drawingSample.run.random.draw.2 := by
  obtain ⟨hleaves, hsave, hfind, hfirst⟩ : leaves? drawingSample = some drawingSample.run.random.draw.2 ∧
      directive? drawingSample = some .save ∧ Directive.find? drawingSample.cursor.rest = some ("SAVE", .save) ∧
      firstLeaves? (past 4 drawingSample) = some (past 4 drawingSample).run.random := by
    decide +kernel
  obtain ⟨goesOn, t, hrun, hrandom⟩ := exists_of_leaves? hleaves
  have hstill : ∀ n, choice? .save = some n → IsStill bareSetting (past 4 drawingSample) n := by
    rintro n hn
    cases hn
    exact isStill_of_firstLeaves? hfirst
  obtain ⟨es, c, st, hargues, hend, honce, -⟩ :=
    (statement_draws_once hrun).2 "SAVE" .save (by decide) hsave hfind hstill
  exact ⟨goesOn, t, es, c, st, hrun, hargues, hend, honce, hrandom⟩

/-- A number that draws, where a text may stand. -/
def repeatingSample : LineState := savingLine "SAVE RND(1)*0,&10"

/-- The place after two arguments, and what they leave of the generator. -/
def secondLeaves? (s : LineState) : Option (Cursor × Random) :=
  match Expr.evaluate (context bareSetting s) bareSetting.allowance.evals s.cursor (evaluation s) with
  | .ok e st =>
    if e.stop.skipBlanks.peek = some ',' then
      match Expr.evaluate (context bareSetting s) bareSetting.allowance.evals (e.stop.skipBlanks.skip 1) st with
      | .ok e st => some (e.stop, st.random)
      | .error _ _ => none
    else none
  | .error _ _ => none

theorem exists_of_secondLeaves? {c : Cursor} {random : Random} (h : secondLeaves? s = some (c, random)) :
    ∃ es st, Argues bareSetting s es c st ∧ st.random = random := by
  unfold secondLeaves? at h
  split at h
  · rename_i e st heval
    split_ifs at h with hcomma
    split at h
    · rename_i e' st' heval'
      obtain ⟨rfl, rfl⟩ := Prod.mk.inj (Option.some.inj h)
      have hpasses : e.stop.Passes [','] (e.stop.skipBlanks.skip 1) := Cursor.passes_one_iff.mpr ⟨hcomma, rfl⟩
      exact ⟨_, st', .next (.first heval) (List.cons_ne_nil _ _) hpasses heval', rfl⟩
    · cases h
  · cases h

/-- The number is drawn twice. -/
theorem save_draws_twice :
    ∃ goesOn t es c st, statement bareSetting repeatingSample = .ok goesOn t ∧
      Argues bareSetting (past 4 repeatingSample) es c st ∧ c.atStatementEnd = true ∧ t.run.random ≠ st.random := by
  obtain ⟨hleaves, hsecond, hne⟩ : leaves? repeatingSample = some repeatingSample.run.random.draw.2.draw.2 ∧
      secondLeaves? (past 4 repeatingSample) = some (⟨17, []⟩, repeatingSample.run.random.draw.2) ∧
      repeatingSample.run.random.draw.2.draw.2 ≠ repeatingSample.run.random.draw.2 := by
    decide +kernel
  obtain ⟨goesOn, t, hrun, hrandom⟩ := exists_of_leaves? hleaves
  obtain ⟨es, st, hargues, hst⟩ := exists_of_secondLeaves? hsecond
  refine ⟨goesOn, t, es, _, st, hrun, hargues, rfl, ?_⟩
  rw [hrandom, hst]
  exact hne

end LineM
end Asm6502
