/-
# Steps that keep to their line

Most steps of a statement look only at the line, at the walk and at what the run
has assembled. They read no file and run no other lines, and they neither see nor
change how the session goes on meanwhile, which is the `Meter` of a run. Such a
step is local: in a setting that runs other lines in another way, and with
another meter, it does the same.

A local step never comes to the bound on lines.

Key definitions: `Meter`, `Run.withMeter`, `Setting.Agrees`, `LineM.IsLocal`.
Key theorems: `LineM.isLocal_bind`, `LineM.IsLocal.congr`,
`LineM.IsLocal.meter_eq`.
-/
import Asm6502.Line
import Asm6502.Proofs.Statement.Execution

namespace Asm6502

/-- How a session goes on while a run reads its files. -/
structure Meter where
  ticket : Ticket
  generation : Nat
  reads : Nat

/-- The meter of a run. -/
def Run.meter (r : Run) : Meter := ⟨r.ticket, r.generation, r.reads⟩

/-- A run with another meter. -/
def Run.withMeter (r : Run) (m : Meter) : Run :=
  { r with ticket := m.ticket, generation := m.generation, reads := m.reads }

/-- A line of a run with another meter. -/
def LineState.withMeter (s : LineState) (m : Meter) : LineState := { s with run := s.run.withMeter m }

/-- Whether two settings differ at most in how other lines are run. -/
structure Setting.Agrees (env env' : Setting) : Prop where
  library : env'.library = env.library
  allowance : env'.allowance = env.allowance
  index : env'.index = env.index

theorem Setting.Agrees.refl (env : Setting) : env.Agrees env := ⟨rfl, rfl, rfl⟩

namespace LineM

-- the statements are long, and so are the searches for their instances
set_option synthInstance.maxSize 1024

variable {α β : Type}

/-- What a step comes to, with another state. -/
def mapState (f : LineState → LineState) : EStateM.Result Stop LineState α → EStateM.Result Stop LineState α
  | .ok a s => .ok a (f s)
  | .error stop s => .error stop (f s)

/-- Whether a step keeps to its line. -/
class IsLocal (m : LineM α) : Prop where
  run_eq : ∀ env env' s meter, Setting.Agrees env env' →
    m env' (s.withMeter meter) = mapState (·.withMeter meter) (m env s)
  ne_exhausted : ∀ env s t, m env s ≠ .error .exhausted t

section
variable {m : LineM α} {env env' : Setting} {s : LineState}

/-- A local step does the same however other lines are run. -/
theorem IsLocal.congr (h : IsLocal m) (henv : env.Agrees env') : m env' s = m env s :=
  (h.run_eq env env' s s.run.meter henv).trans (h.run_eq env env s s.run.meter (.refl env)).symm

/-- A local step leaves the meter as it is. -/
theorem IsLocal.meter_eq (h : IsLocal m) :
    wp m env s (fun _ t => t.run.meter = s.run.meter) fun _ t => t.run.meter = s.run.meter := by
  have hself : m env s = mapState (·.withMeter s.run.meter) (m env s) := h.run_eq env env s s.run.meter (.refl env)
  rw [wp, hself]
  cases m env s <;> rfl

end

/-! ### Putting steps together -/

theorem isLocal_bind {x : LineM β} {f : β → LineM α} (hx : IsLocal x) (hf : ∀ b, IsLocal (f b)) :
    IsLocal (x >>= f) where
  run_eq env env' s meter henv := by
    have hx := hx.run_eq env env' s meter henv
    change EStateM.bind (x env') (fun b => f b env') _ = mapState _ (EStateM.bind (x env) (fun b => f b env) s)
    unfold EStateM.bind
    rw [hx]
    cases x env s with
    | ok b t => exact (hf b).run_eq env env' t meter henv
    | error stop t => rfl
  ne_exhausted env s t := by
    change EStateM.bind (x env) (fun b => f b env) s ≠ _
    unfold EStateM.bind
    cases hrun : x env s with
    | ok b u => exact (hf b).ne_exhausted env u t
    | error stop u =>
      rintro ⟨⟩
      exact hx.ne_exhausted env s t hrun

instance {x : LineM β} {f : β → LineM α} [hx : IsLocal x] [hf : ∀ b, IsLocal (f b)] : IsLocal (x >>= f) :=
  isLocal_bind hx hf

theorem isLocal_ite {c : Prop} [Decidable c] {x y : LineM α} (hx : IsLocal x) (hy : IsLocal y) :
    IsLocal (if c then x else y) := by
  split
  · exact hx
  · exact hy

instance {c : Prop} [Decidable c] {x y : LineM α} [hx : IsLocal x] [hy : IsLocal y] :
    IsLocal (if c then x else y) := isLocal_ite hx hy

/-- A step that is made under a condition, before others. -/
theorem isLocal_when {c : Prop} [Decidable c] {x : LineM Unit} {f : Unit → LineM α} (hx : IsLocal x)
    (hf : ∀ b, IsLocal (f b)) : IsLocal (if c then x >>= f else f ()) := isLocal_ite (isLocal_bind hx hf) (hf ())

/-- The run may be looked at, but for its meter. -/
theorem isLocal_getRun {f : Run → LineM α} (hf : ∀ r meter, f (r.withMeter meter) = f r)
    (h : ∀ r, IsLocal (f r)) : IsLocal (getRun >>= f) where
  run_eq env env' s meter henv := by
    change f (s.run.withMeter meter) env' _ = mapState _ (f s.run env s)
    rw [hf]
    exact (h s.run).run_eq env env' s meter henv
  ne_exhausted env s t := (h s.run).ne_exhausted env s t

theorem isLocal_get {f : LineState → LineM α} (hf : ∀ s meter, f (s.withMeter meter) = f s)
    (h : ∀ s, IsLocal (f s)) : IsLocal (get >>= f) where
  run_eq env env' s meter henv := by
    change f (s.withMeter meter) env' _ = mapState _ (f s env s)
    rw [hf]
    exact (h s).run_eq env env' s meter henv
  ne_exhausted env s t := (h s).ne_exhausted env s t

/-- The setting may be looked at, but for how other lines are run. -/
theorem isLocal_read {f : Setting → LineM α} (hf : ∀ env env', Setting.Agrees env env' → f env' = f env)
    (h : ∀ env, IsLocal (f env)) : IsLocal (read >>= f) where
  run_eq env env' s meter henv := by
    change f env' env' _ = mapState _ (f env env s)
    rw [hf env env' henv]
    exact (h env).run_eq env env' s meter henv
  ne_exhausted env s t := (h env).ne_exhausted env s t

theorem isLocal_andThen {m : LineM α} {last : LineState → LineState} (hm : IsLocal m)
    (hlast : ∀ s meter, last (s.withMeter meter) = (last s).withMeter meter) : IsLocal (m.andThen last) where
  run_eq env env' s meter henv := by
    unfold andThen
    rw [hm.run_eq env env' s meter henv]
    cases m env s <;> exact congrArg _ (hlast _ _)
  ne_exhausted env s t := by
    unfold andThen
    cases hrun : m env s with
    | ok a u => rintro ⟨⟩
    | error stop u =>
      rintro ⟨⟩
      exact hm.ne_exhausted env s u hrun

/-! ### Primitive steps -/

/-- A step that succeeds. -/
theorem isLocal_of_ok {m : LineM α} {value : Setting → LineState → α} {after : LineState → LineState}
    (hm : ∀ env s, m env s = .ok (value env s) (after s))
    (hvalue : ∀ env env' s meter, Setting.Agrees env env' → value env' (s.withMeter meter) = value env s)
    (hafter : ∀ s meter, after (s.withMeter meter) = (after s).withMeter meter) : IsLocal m where
  run_eq env env' s meter henv := by
    rw [hm, hm, hvalue env env' s meter henv, hafter]
    rfl
  ne_exhausted env s t := by
    rw [hm]
    rintro ⟨⟩

theorem isLocal_modify {f : LineState → LineState} (hf : ∀ s meter, f (s.withMeter meter) = (f s).withMeter meter) :
    IsLocal (modify f : LineM Unit) := isLocal_of_ok (fun _ _ => rfl) (fun _ _ _ _ _ => rfl) hf

theorem isLocal_modifyRun {f : Run → Run} (hf : ∀ r meter, f (r.withMeter meter) = (f r).withMeter meter) :
    IsLocal (modifyRun f) :=
  isLocal_modify fun s meter => congrArg (fun run => { s with run }) (hf s.run meter)

instance {f : ObjectCode → ObjectCode} : IsLocal (modifyCode f) := isLocal_modify fun _ _ => rfl

instance {problem : Problem} : IsLocal (throw (.problem problem) : LineM α) :=
  ⟨fun _ _ _ _ _ => rfl, fun _ _ _ => by rintro ⟨⟩⟩

instance : IsLocal evaluate where
  run_eq env env' s meter henv := by
    have hcontext : context env' (s.withMeter meter) = context env s := by
      unfold context
      rw [henv.index]
      rfl
    have hsame : Expr.evaluate (context env' (s.withMeter meter)) env'.allowance.evals (s.withMeter meter).cursor
        (evaluation (s.withMeter meter)) =
        Expr.evaluate (context env s) env.allowance.evals s.cursor (evaluation s) := by
      rw [hcontext, henv.allowance]
      rfl
    unfold evaluation at hsame
    unfold evaluate
    dsimp only
    rw [hsame]
    cases Expr.evaluate (context env s) env.allowance.evals s.cursor
      ⟨s.run.symbols, s.run.random, s.run.history⟩ <;> rfl
  ne_exhausted env s t := by
    unfold evaluate
    dsimp only
    split <;> rintro ⟨⟩

instance {bytes : List (UInt8 × Bool)} {n : Nat} : IsLocal (write bytes n) where
  run_eq env env' s meter henv := by
    unfold write
    rw [henv.index]
    dsimp only [LineState.withMeter, Run.withMeter]
    cases (s.run.code.write bytes (s.walk.buffer.origin env.index n)).1 <;> rfl
  ne_exhausted env s t := by
    unfold write
    dsimp only
    split <;> rintro ⟨⟩

/-- A change of walk and run that does not see the meter. -/
theorem isLocal_changeWalk {n : Nat} {f : Walk → Run → Except Fault (Walk × Run)}
    (hf : ∀ w r meter, f w (r.withMeter meter) = (f w r).map fun x => (x.1, x.2.withMeter meter)) :
    IsLocal (changeWalk n f) where
  run_eq env env' s meter henv := by
    change (ofFault n (f s.walk (s.run.withMeter meter)) >>=
      fun x => modify fun s => { s with walk := x.1, run := x.2 }) env' (s.withMeter meter) = mapState _
        ((ofFault n (f s.walk s.run) >>= fun x => modify fun s => { s with walk := x.1, run := x.2 }) env s)
    rw [hf]
    cases f s.walk s.run <;> rfl
  ne_exhausted env s t := by
    change (ofFault n (f s.walk s.run) >>= fun x => modify fun s => { s with walk := x.1, run := x.2 }) env s ≠ _
    cases f s.walk s.run <;> rintro ⟨⟩

end LineM
end Asm6502
