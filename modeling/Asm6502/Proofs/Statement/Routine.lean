/-
# What the steps of a statement do

Most steps of a statement are routine: they keep to their line and do no more than
the deeds of a statement, at places of the region where they begin.

Key definitions: `LineM.Acts`, `LineM.IsRoutine`.
Key theorems: `LineM.isRoutine_bind`, `LineM.isRoutine_take`, `LineM.Acts.bind`.
-/
import Asm6502.Proofs.Statement.Deed
import Asm6502.Proofs.Statement.Local
import Asm6502.Proofs.Statement.Place

namespace Asm6502

namespace Rule

/-- Whether a value may be that of an argument under the rule. -/
def Admits {α : Type} (rule : Rule α) (a : α) : Prop :=
  rule.refuses a = none ∨ rule.standIn = some a ∨ rule.otherwise = some a

theorem Admits.tolerating {low high n : Int} (hlow : low ≤ 0) (hhigh : 0 ≤ high) {rule : Rule Int} {fault : Fault}
    (hrule : rule.refuses n = if n < low || n > high then some fault else none)
    (hstandIn : rule.standIn = none ∨ rule.standIn = some 0) (hotherwise : rule.otherwise = none)
    (h : rule.Admits n) : low ≤ n ∧ n ≤ high := by
  rcases h with h | h | h
  · rw [hrule] at h
    split_ifs at h with hbounds
    simp only [Bool.or_eq_true, decide_eq_true_eq, not_or] at hbounds
    omega
  · rcases hstandIn with hnone | hzero
    · rw [hnone] at h
      cases h
    · rw [hzero] at h
      cases h
      exact ⟨hlow, hhigh⟩
  · rw [hotherwise] at h
    cases h

theorem Admits.address {n : Int} (h : Rule.address.Admits n) : 0 ≤ n ∧ n ≤ 0xFFFF :=
  h.tolerating (by omega) (by omega) rfl (Or.inl rfl) rfl

end Rule

namespace LineM

-- the statements are long, and so are the searches for their instances
set_option synthInstance.maxSize 1024

/-- Whether a step begun in `s` does no more than deeds, and ends at a place of the
region. -/
def Acts (env : Setting) (on : Region) (may : Doing → Prop) (m : LineM α) (s : LineState) : Prop :=
  wp m env s (fun _ t => on.Has t.cursor ∧ s.Deeds env on may t) (s.Stops env on may)

/-- Whether a step keeps to its line and does no more than deeds. -/
class IsRoutine {α : Type} (on : Region) (may : Doing → Prop) (m : LineM α) : Prop where
  isLocal : IsLocal m
  acts : ∀ env s, on.Has s.cursor → Acts env on may m s

section
variable {α β : Type} {env : Setting} {on : Region} {may : Doing → Prop} {s : LineState}

instance {doing : Doing} : Fact (Doing.Any doing) := ⟨trivial⟩

instance (priority := low) {m : LineM α} [h : IsRoutine .whole Doing.Any m] : IsLocal m := h.isLocal

theorem acts_routine {m : LineM α} [h : IsRoutine on may m] (hs : on.Has s.cursor) : Acts env on may m s := h.acts env s hs

/-! ### Putting steps together -/

theorem Acts.after {m : LineM α} {t : LineState} (hm : Acts env on may m t) (h : s.Deeds env on may t) :
    wp m env t (fun _ u => on.Has u.cursor ∧ s.Deeds env on may u) (s.Stops env on may) :=
  wp_mono hm (fun _ _ hu => ⟨hu.1, h.trans hu.2⟩) fun _ _ hu => hu.after h

theorem Acts.bind {x : LineM β} {f : β → LineM α} (hx : Acts env on may x s)
    (hf : ∀ b t, x env s = .ok b t → on.Has t.cursor → Acts env on may (f b) t) : Acts env on may (x >>= f) s := by
  unfold Acts at hx
  rw [Acts, wp_bind]
  exact wp_mono_ok hx (fun b t hrun ht => (hf b t hrun ht.1).after ht.2) fun _ _ h => h

/-- A step that leaves the walk as it is, before others. -/
theorem Acts.still {x : LineM β} {f : β → LineM α} [hx : ∀ may, IsRoutine on may x] (hs : on.Has s.cursor)
    (hf : ∀ b t, x env s = .ok b t → on.Has t.cursor → t.walk = s.walk → Acts env on may (f b) t) :
    Acts env on may (x >>= f) s :=
  (acts_routine hs).bind fun b t hrun ht => hf b t hrun ht
    (of_wp_ok ((hx Doing.None).acts env s hs) hrun).2.resembles.walk

/-- A step whose result is known and that changes neither walk nor run. -/
theorem Acts.step {x : LineM β} {b : β} {t : LineState} {f : β → LineM α} (hx : x env s = .ok b t)
    (hwalk : t.walk = s.walk) (hrun : t.run = s.run) (hf : Acts env on may (f b) t) : Acts env on may (x >>= f) s := by
  have ht : s.Deeds env on may t := by
    unfold LineState.Deeds
    rw [hwalk, hrun]
  unfold Acts
  rw [wp_bind, wp, hx]
  exact hf.after ht

theorem Acts.deed {m : LineM α} {t : LineState} (hm : Acts env on may m t)
    (hdeed : Deed env on may (s.walk, s.run) (t.walk, t.run)) :
    wp m env t (fun _ u => on.Has u.cursor ∧ s.Deeds env on may u) (s.Stops env on may) :=
  hm.after (.single hdeed)

theorem Acts.ofFault {n : Nat} {x : Except Fault β} {f : β → LineM α}
    (hf : ∀ b, x = .ok b → Acts env on may (f b) s) : Acts env on may (ofFault n x >>= f) s := by
  cases x with
  | error fault => exact LineState.Stops.of (.refl s)
  | ok b => exact hf b rfl

theorem Acts.when {c : Prop} [Decidable c] {x : LineM Unit} {f : Unit → LineM α} [hx : ∀ may, IsRoutine on may x]
    (hs : on.Has s.cursor) (hf : ∀ t, on.Has t.cursor → t.walk = s.walk → Acts env on may (f ()) t) :
    Acts env on may (if c then x >>= f else f ()) s := by
  split_ifs
  · exact .still hs fun _ t _ => hf t
  · exact hf s hs rfl

theorem Acts.ite {c : Prop} [Decidable c] {x y : LineM α} (hx : c → Acts env on may x s)
    (hy : ¬ c → Acts env on may y s) : Acts env on may (if c then x else y) s := by
  split_ifs with hc
  · exact hx hc
  · exact hy hc

theorem isRoutine_bind {x : LineM β} {f : β → LineM α} (hx : IsRoutine on may x) (hf : ∀ b, IsRoutine on may (f b)) :
    IsRoutine on may (x >>= f) :=
  ⟨isLocal_bind hx.isLocal fun b => (hf b).isLocal,
    fun env s hs => (hx.acts env s hs).bind fun b t _ ht => (hf b).acts env t ht⟩

theorem isRoutine_then {x : LineM β} {f : β → LineM α} [hx : IsRoutine on may x] (hf : ∀ b, IsRoutine on may (f b)) :
    IsRoutine on may (x >>= f) := isRoutine_bind hx hf

instance {x : LineM β} {f : β → LineM α} [hx : IsRoutine on may x] [hf : ∀ b, IsRoutine on may (f b)] :
    IsRoutine on may (x >>= f) := isRoutine_bind hx hf

theorem isRoutine_ite {c : Prop} [Decidable c] {x y : LineM α} (hx : IsRoutine on may x) (hy : IsRoutine on may y) :
    IsRoutine on may (if c then x else y) := by
  split
  · exact hx
  · exact hy

instance {c : Prop} [Decidable c] {x y : LineM α} [hx : IsRoutine on may x] [hy : IsRoutine on may y] :
    IsRoutine on may (if c then x else y) := isRoutine_ite hx hy

/-- A step that is made under a condition, before others. -/
theorem isRoutine_when {c : Prop} [Decidable c] {x : LineM Unit} {f : Unit → LineM α} (hx : IsRoutine on may x)
    (hf : ∀ b, IsRoutine on may (f b)) : IsRoutine on may (if c then x >>= f else f ()) :=
  isRoutine_ite (isRoutine_bind hx hf) (hf ())

/-- A step that is made under a condition, with what is read for it, before
others. -/
theorem isRoutine_when_read {c : Prop} [Decidable c] {m : LineM β} {x : β → LineM Unit} {f : Unit → LineM α}
    (hm : IsRoutine on may m) (hx : ∀ b, IsRoutine on may (x b)) (hf : ∀ b, IsRoutine on may (f b)) :
    IsRoutine on may (if c then m >>= fun b => x b >>= f else f ()) :=
  isRoutine_ite (isRoutine_bind hm fun b => isRoutine_bind (hx b) hf) (hf ())

theorem isRoutine_getRun {f : Run → LineM α} (hf : ∀ r meter, f (r.withMeter meter) = f r)
    (h : ∀ r, IsRoutine on may (f r)) : IsRoutine on may (getRun >>= f) :=
  ⟨isLocal_getRun hf fun r => (h r).isLocal, fun env s hs => (h s.run).acts env s hs⟩

/-- The place that is looked at is one of the region. -/
theorem isRoutine_getCursor {f : Cursor → LineM α} (hlocal : ∀ c, IsLocal (f c))
    (h : ∀ c, on.Has c → IsRoutine on may (f c)) : IsRoutine on may (getCursor >>= f) :=
  ⟨isLocal_bind (isLocal_of_ok (fun _ _ => rfl) (fun _ _ _ _ _ => rfl) fun _ _ => rfl) hlocal,
    fun env s hs => (h s.cursor hs).acts env s hs⟩

theorem isRoutine_get {f : LineState → LineM α} (hf : ∀ s meter, f (s.withMeter meter) = f s)
    (h : ∀ s, IsRoutine on may (f s)) : IsRoutine on may (get >>= f) :=
  ⟨isLocal_get hf fun s => (h s).isLocal, fun env s hs => (h s).acts env s hs⟩

theorem isRoutine_read {f : Setting → LineM α} (hf : ∀ env env', Setting.Agrees env env' → f env' = f env)
    (h : ∀ env, IsRoutine on may (f env)) : IsRoutine on may (read >>= f) :=
  ⟨isLocal_read hf fun env => (h env).isLocal, fun env s hs => (h env).acts env s hs⟩

/-! ### Primitive steps -/

theorem isRoutine_look {m : LineM α} {value : Setting → LineState → α} (hm : ∀ env s, m env s = .ok (value env s) s)
    (hvalue : ∀ env env' s meter, Setting.Agrees env env' → value env' (s.withMeter meter) = value env s) :
    IsRoutine on may m := by
  refine ⟨isLocal_of_ok hm hvalue fun _ _ => rfl, fun env s hs => ?_⟩
  rw [Acts, wp, hm]
  exact ⟨hs, .refl s⟩

/-- A step that changes neither walk nor run. -/
theorem isRoutine_modify {f : LineState → LineState} (hf : ∀ s meter, f (s.withMeter meter) = (f s).withMeter meter)
    (hcursor : ∀ s : LineState, s.cursor.Reaches (f s).cursor) (hwalk : ∀ s, (f s).walk = s.walk)
    (hrun : ∀ s, (f s).run = s.run) :
    IsRoutine on may (modify f : LineM Unit) := by
  refine ⟨isLocal_modify hf, fun env s hs => ⟨on.further hs (hcursor s), ?_⟩⟩
  unfold LineState.Deeds
  rw [hwalk, hrun]

theorem isRoutine_modifyRun {f : Run → Run} (hf : ∀ r meter, f (r.withMeter meter) = (f r).withMeter meter)
    (hdeed : ∀ env w r, Deed env on may (w, r) (w, f r)) : IsRoutine on may (modifyRun f) :=
  ⟨isLocal_modifyRun hf, fun env s hs => ⟨hs, .single (hdeed env s.walk s.run)⟩⟩

theorem isRoutine_coded {f : ObjectCode → ObjectCode}
    (hf : ∀ p code, ∃ action, code.Admits may p action ∧ f code = code.after action) : IsRoutine on may (modifyCode f) := by
  refine ⟨inferInstance, fun env s hs => ⟨hs, .single ?_⟩⟩
  obtain ⟨action, hadmits, haction⟩ := hf (s.walk.buffer.origin env.index 0) s.run.code
  dsimp only
  rw [haction]
  exact .coded action hadmits

theorem isRoutine_setCursor {c : Cursor} (hc : on.Has c) : IsRoutine on may (setCursor c) :=
  ⟨isLocal_modify fun _ _ => rfl, fun _ s _ => ⟨hc, .refl s⟩⟩

instance {a : α} : IsRoutine on may (pure a : LineM α) := isRoutine_look (fun _ _ => rfl) fun _ _ _ _ _ => rfl
instance : IsRoutine on may getCursor := isRoutine_look (fun _ _ => rfl) fun _ _ _ _ _ => rfl
instance : IsRoutine on may getWalk := isRoutine_look (fun _ _ => rfl) fun _ _ _ _ _ => rfl
instance : IsRoutine on may peek := isRoutine_look (fun _ _ => rfl) fun _ _ _ _ _ => rfl
instance : IsRoutine on may column := isRoutine_look (fun _ _ => rfl) fun _ _ _ _ _ => rfl
instance : IsRoutine on may isSecondPass := isRoutine_look (fun _ _ => rfl) fun _ _ _ _ _ => rfl
instance {m : Mnemonic} {mode : Mode} : IsRoutine on may (opcode? m mode) :=
  isRoutine_look (fun _ _ => rfl) fun _ _ _ _ _ => rfl
instance {n : Nat} : IsRoutine on may (advance n) :=
  isRoutine_modify (fun _ _ => rfl) (fun s => s.cursor.reaches_skip n) (fun _ => rfl) fun _ => rfl
instance : IsRoutine on may skipBlanks :=
  isRoutine_modify (fun _ _ => rfl) (fun s => s.cursor.reaches_skipBlanks) (fun _ => rfl) fun _ => rfl
instance : IsRoutine on may skipStatement :=
  isRoutine_modify (fun _ _ => rfl) (fun s => s.cursor.reaches_skip _) (fun _ => rfl) fun _ => rfl
instance {node : Node} : IsRoutine on may (pushPart node) :=
  isRoutine_modify (fun _ _ => rfl) (fun _ => .refl _) (fun _ => rfl) fun _ => rfl
instance {kind : NodeKind} {text : String} {n : Nat} : IsRoutine on may (pushNode kind text n) :=
  isRoutine_modify (fun _ _ => rfl) (fun _ => .refl _) (fun _ => rfl) fun _ => rfl
instance {cursor : Cursor} : IsLocal (setCursor cursor) := isLocal_modify fun _ _ => rfl
instance {walk : Walk} : IsLocal (setWalk walk) := isLocal_modify fun _ _ => rfl
instance {f : SymbolTable → SymbolTable} : IsLocal (modifySymbols f) := isLocal_modifyRun fun _ _ => rfl
instance {what : Note} : IsLocal (note what) := isLocal_modifyRun fun _ _ => rfl

instance {n : Nat} : IsRoutine on may (position n) :=
  isRoutine_look (fun _ _ => rfl) fun env env' s meter henv => by rw [henv.index]; rfl

instance {n : Nat} : IsRoutine on may (spot n) :=
  isRoutine_look (fun _ _ => rfl) fun env env' s meter henv => by rw [henv.index]

instance : IsRoutine on may atEnd := inferInstanceAs (IsRoutine on may (do
  skipBlanks
  return (← getCursor).atStatementEnd))

instance {fault : Fault} {n : Nat} : IsRoutine on may (fail fault n : LineM α) :=
  ⟨inferInstanceAs (IsLocal (throw (.problem ⟨fault, n⟩) : LineM α)), fun _ s _ => .of (.refl s)⟩

instance {n : Nat} {x : Except Fault α} : IsRoutine on may (ofFault n x) := by
  cases x with
  | ok a => exact inferInstanceAs (IsRoutine on may (pure a))
  | error fault => exact inferInstanceAs (IsRoutine on may (fail fault n))

instance : IsRoutine on may evaluate := by
  refine ⟨inferInstance, fun env s hs => ?_⟩
  unfold Acts
  rw [wp_evaluate]
  refine ⟨fun e after he => ⟨on.further hs (Expr.evaluate_reaches he).1, .single ?_⟩, fun problem after he => .of (.single ?_)⟩
  · exact .evaluated s hs (Or.inl ⟨e, he⟩)
  · exact .evaluated s hs (Or.inr ⟨problem, he⟩)

instance {bytes : List (UInt8 × Bool)} {n : Nat} [hmay : Fact (may .writing)] : IsRoutine on may (write bytes n) := by
  refine ⟨inferInstance, fun env s hs => ?_⟩
  have hdeeds : s.Deeds env on may { s with run := { s.run with
      code := (s.run.code.write bytes (s.walk.buffer.origin env.index n)).2 } } :=
    .single (.coded (.operation (.write bytes _)) ⟨hmay.out, rfl, rfl, rfl⟩)
  unfold Acts
  rw [wp_write]
  dsimp only
  split
  · exact ⟨hs, hdeeds⟩
  · exact .of hdeeds

instance isRoutine_writeEach {known : Bool} {n : Nat} {bytes : List UInt8} [Fact (may .writing)] :
    IsRoutine on may (writeEach known n bytes) := by
  induction bytes with
  | nil => exact inferInstanceAs (IsRoutine on may (pure ()))
  | cons byte bytes ih => exact isRoutine_then fun _ => ih

instance : IsRoutine on may expectEnd := by
  unfold expectEnd
  refine isRoutine_then fun _ => isRoutine_then fun cursor => ?_
  split
  · exact inferInstanceAs (IsRoutine on may (fail _ _))
  · infer_instance

instance : IsRoutine on may expectComma := by
  unfold expectComma
  infer_instance

instance : IsRoutine on may expectName := by
  unfold expectName
  refine isRoutine_then fun _ => isRoutine_getCursor (fun c => ?_) fun c hc => ?_
  · infer_instance
  · have hset : IsRoutine on may (setCursor c.name.2) := isRoutine_setCursor (on.further hc (c.reaches_skip _))
    infer_instance

/-- A change of walk and run that does not see the meter. -/
theorem isRoutine_changeWalk {n : Nat} {f : Walk → Run → Except Fault (Walk × Run)}
    (hmeter : ∀ w r meter, f w (r.withMeter meter) = (f w r).map fun x => (x.1, x.2.withMeter meter))
    (hf : ∀ env w r w' r', f w r = .ok (w', r') → Deed env on may (w, r) (w', r')) :
    IsRoutine on may (changeWalk n f) :=
  ⟨isLocal_changeWalk hmeter, fun env s hs => wp_changeWalk (fun w r hresult => ⟨hs, .single (hf env _ _ w r hresult)⟩)
    fun _ => .of (.refl s)⟩

/-! ### Arguments and items -/

instance {rule : Rule α} {a : Argument α} : IsRoutine on may (a.take rule) := by
  unfold Argument.take
  split <;> split <;> infer_instance

/-- What an argument comes to is a value that its rule admits. -/
theorem isRoutine_take {rule : Rule β} {x : Argument β} {f : β → LineM α}
    (hf : ∀ b, rule.Admits b → IsRoutine on may (f b)) : IsRoutine on may (x.take rule >>= f) := by
  have hnext {b : β} (hb : rule.Admits b) : IsRoutine on may (pure b >>= f) := hf b hb
  have hstop {fault : Fault} : IsRoutine on may (fail fault x.column >>= f) :=
    inferInstanceAs (IsRoutine on may (fail fault x.column : LineM α))
  unfold Argument.take
  split
  · split
    · exact hstop
    · rename_i hrefuses
      exact hnext (Or.inl hrefuses)
  · split
    · rename_i hstandIn
      exact hnext (Or.inr (Or.inl hstandIn))
    · exact hstop
  · split
    · rename_i hotherwise
      exact hnext (Or.inr (Or.inr hotherwise))
    · exact hstop

instance {rule : Rule α} {a : Argument α} : IsRoutine on may (a.take? rule) := by
  unfold Argument.take?
  split
  · infer_instance
  · rw [← bind_pure_comp]
    infer_instance

instance {convert : Value → Except Fault α} : IsRoutine on may (argument convert) := by
  unfold argument
  have hread (first : Bool) : IsRoutine on may (do
      if !first then expectComma
      skipBlanks
      let start ← column
      let e ← evaluate
      pushPart e.node
      if e.known then return (⟨start, .found (← ofFault start (convert e.value))⟩ : Argument α)
      else return ⟨start, .undefined⟩) := inferInstance
  have := isRoutine_get (fun _ _ => rfl) fun s => hread s.parts.isEmpty
  infer_instance

instance : IsRoutine on may integer := inferInstanceAs (IsRoutine on may (argument Value.integer))
instance : IsRoutine on may number := inferInstanceAs (IsRoutine on may (argument Value.number))
instance : IsRoutine on may text := inferInstanceAs (IsRoutine on may (argument Value.text))

/-- The text that is read for an argument, from a place to which it may go back. -/
theorem isRoutine_textFrom {before : Cursor} (hbefore : on.Has before) : IsRoutine on may (do
    let first := (← get).parts.isEmpty
    if ← atEnd then return none
    if !first && (← peek) != some ',' then return none
    if !first then advance 1
    let e ← evaluate
    match e.value with
    | .str text =>
      pushPart e.node
      return some text
    | .num _ =>
      setCursor before
      return none) := by
  have hback : IsRoutine on may (setCursor before) := isRoutine_setCursor hbefore
  refine isRoutine_get (fun _ _ => rfl) fun s => isRoutine_then fun _ => isRoutine_ite inferInstance ?_
  refine isRoutine_then fun _ => isRoutine_ite inferInstance (isRoutine_when inferInstance fun _ => ?_)
  refine isRoutine_then fun e => ?_
  split <;> infer_instance

instance : IsRoutine on may optionalText :=
  isRoutine_getCursor (fun before => (@isRoutine_textFrom .whole Doing.Any before trivial).isLocal)
    fun _ => isRoutine_textFrom

instance isRoutine_eachSeparated {item : LineM Unit} [IsRoutine on may item] {steps : Nat} :
    IsRoutine on may (eachSeparated item steps) := by
  induction steps with
  | zero => exact inferInstanceAs (IsRoutine on may item)
  | succ steps ih =>
    unfold eachSeparated
    infer_instance

instance {item : LineM Unit} [IsRoutine on may item] : IsRoutine on may (separated item) := by
  unfold separated
  infer_instance

/-! ### Data and messages -/

section
variable [Fact (may .writing)]

instance isRoutine_writeText {n : Nat} {cs : List Char} : IsRoutine on may (writeText n cs) := by
  induction cs with
  | nil => exact inferInstanceAs (IsRoutine on may (pure ()))
  | cons c cs ih =>
    have hnext : IsRoutine on may (do
        let byte := (← getRun).code.mappedChar (UInt8.ofNat c.toNat)
        write [(byte, true)] n
        writeText n cs) := isRoutine_getRun (fun _ _ => rfl) fun _ => inferInstance
    unfold writeText
    infer_instance

instance {width : Nat} {e : Expr.Evaluated} {n : Nat} : IsRoutine on may (writeValue width e n) := by
  unfold writeValue
  split <;> infer_instance

instance {width : Nat} : IsRoutine on may (equ width) := by
  unfold equ
  infer_instance

end

instance : IsRoutine on may assert := by
  unfold assert
  infer_instance

instance isRoutine_printItems {before : List String} {steps : Nat} : IsRoutine on may (printItems before steps) := by
  induction steps generalizing before with
  | zero => exact inferInstanceAs (IsRoutine on may (pure before))
  | succ steps ih =>
    have hitem (hex : Bool) : IsRoutine on may (do
        let e ← evaluate
        pushPart e.node
        printItems (before ++ [printedText hex e.value]) steps) := inferInstance
    unfold printItems
    refine isRoutine_then fun ended => ?_
    split
    · infer_instance
    · exact isRoutine_get (fun _ _ => rfl) fun s => inferInstance

instance : IsRoutine on may print := by
  unfold print
  refine isRoutine_then fun _ => isRoutine_then fun items => isRoutine_then fun _ => ?_
  split
  · exact isRoutine_modifyRun (fun _ _ => rfl) fun _ _ r => .idled r.random r.links _ r.lookups r.reads r.generation
  · infer_instance

instance {start : Nat} : IsRoutine on may (error start) := by
  unfold error
  infer_instance

/-! ### Placing code and naming files -/

theorem isRoutine_changeCode {n : Nat} {f : ObjectCode → Except MemoryFault ObjectCode}
    (hf : ∀ p code code', f code = .ok code' → ∃ action, code.Admits may p action ∧ code' = code.after action) :
    IsRoutine on may (changeCode n f) := by
  constructor
  · unfold changeCode
    refine isLocal_getRun (fun _ _ => rfl) fun r => ?_
    split <;> infer_instance
  · intro env s hs
    simp only [Acts, changeCode, wp_bind, wp_getRun]
    split
    · rename_i code hcode
      obtain ⟨action, hadmits, rfl⟩ := hf (s.walk.buffer.origin env.index 0) _ _ hcode
      exact ⟨hs, .single (.coded action hadmits)⟩
    · exact .of (.refl s)

instance {n amount : Nat} : IsRoutine on may (changeCode n (·.advance amount)) :=
  isRoutine_changeCode fun _ code code' h => ⟨.operation (.advance amount), trivial, by
    simp only [ObjectCode.after, ObjectCode.step, h]⟩

instance : IsRoutine on may org := by
  refine isRoutine_then fun _ => isRoutine_take fun address haddress => ?_
  refine isRoutine_then fun _ => isRoutine_coded fun _ code => ?_
  have hle : address.toNat ≤ memorySize := by
    have hbounds := haddress.address
    rw [memorySize]
    omega
  exact ⟨.operation (.setPc address.toNat), hle, rfl⟩

instance [hmay : Fact (may .defining)] : IsRoutine on may cpu := by
  have (cpu : Int) : IsRoutine on may (modifyCode (·.setCpu (UInt8.ofInt cpu))) :=
    isRoutine_coded fun _ code => ⟨.set code.callSites (UInt8.ofInt cpu) code.chars, Or.inl rfl, rfl⟩
  have (value : Value) : IsRoutine on may (modifySymbols (·.change "CPU" value)) :=
    isRoutine_modifyRun (fun _ _ => rfl) fun _ _ _ => .processor hmay.out value
  unfold cpu
  infer_instance

instance : IsRoutine on may guardAddress := by
  have (address : Nat) : IsRoutine on may (modifyCode (·.setGuard address)) :=
    isRoutine_coded fun _ _ => ⟨.operation (.setGuard address), trivial, rfl⟩
  unfold guardAddress
  infer_instance

instance [hmay : Fact (may .moving)] : IsRoutine on may clear := by
  have (start stop : Nat) : IsRoutine on may (modifyCode (·.clear start stop true)) :=
    isRoutine_coded fun _ _ => ⟨.operation (.clear start stop), hmay.out, rfl⟩
  unfold clear
  infer_instance

instance {start : Nat} : IsRoutine on may (skip start) := by
  unfold skip
  infer_instance

instance {start : Nat} : IsRoutine on may (skipTo start) := by
  unfold skipTo
  have hskip (argument : Argument Int) (address : Int) : IsRoutine on may (do
      let pc := (← getRun).code.pc
      if address.toNat < pc then fail .backwardsSkip argument.column
      changeCode start (·.advance (address.toNat - pc))) :=
    isRoutine_getRun (fun _ _ => rfl) fun _ => inferInstance
  infer_instance

instance {start : Nat} : IsRoutine on may (align start) := by
  have (n : Nat) : IsRoutine on may (changeCode start fun code => code.advance ((n - code.pc % n) % n)) := by
    refine isRoutine_changeCode fun _ code code' h => ⟨.operation (.advance ((n - code.pc % n) % n)), trivial, ?_⟩
    simp only [ObjectCode.after, ObjectCode.step, h]
  unfold align
  infer_instance

theorem mapChar_eq (code : ObjectCode) (c mapped : UInt8) : ∃ chars, code.mapChar c mapped = { code with chars } := by
  unfold ObjectCode.mapChar
  split
  · exact ⟨_, rfl⟩
  · exact ⟨code.chars, rfl⟩

theorem mapRange_eq (code : ObjectCode) (first last mapped : Nat) :
    ∃ chars, mapRange code first last mapped = { code with chars } := by
  have hfold (offsets : List Nat) (code : ObjectCode) : ∃ chars, offsets.foldl (fun code i =>
      code.mapChar (UInt8.ofNat (first + i)) (UInt8.ofNat (mapped + i))) code = { code with chars } := by
    induction offsets generalizing code with
    | nil => exact ⟨code.chars, rfl⟩
    | cons i offsets ih =>
      obtain ⟨chars, hchars⟩ := mapChar_eq code (UInt8.ofNat (first + i)) (UInt8.ofNat (mapped + i))
      rw [List.foldl_cons, hchars]
      obtain ⟨chars', hchars'⟩ := ih { code with chars }
      exact ⟨chars', hchars'⟩
  exact hfold _ code

theorem isRoutine_mapped {f : ObjectCode → ObjectCode} (hf : ∀ code, ∃ chars, f code = { code with chars }) :
    IsRoutine on may (modifyCode f) := by
  refine isRoutine_coded fun _ code => ?_
  obtain ⟨chars, hchars⟩ := hf code
  exact ⟨.set code.callSites code.cpu chars, Or.inl rfl, hchars⟩

instance : IsRoutine on may mapCharacters := by
  unfold mapCharacters
  refine isRoutine_then fun _ => isRoutine_then fun _ => isRoutine_then fun _ => ?_
  refine isRoutine_then fun _ => isRoutine_then fun _ => ?_
  refine isRoutine_then fun third => isRoutine_then fun _ => ?_
  split
  · exact isRoutine_mapped fun code => mapChar_eq code _ _
  · exact isRoutine_when inferInstance fun _ => isRoutine_mapped fun code => mapRange_eq code _ _ _

instance [hmay : Fact (may .moving)] {start : Nat} : IsRoutine on may (copyBlock start) := by
  have (first stop target : Nat) : IsRoutine on may (changeCode start (·.copy first stop target)) := by
    refine isRoutine_changeCode fun _ code code' h => ⟨.copy first stop target, hmay.out, ?_⟩
    rw [ObjectCode.after, h]
    rfl
  unfold copyBlock
  infer_instance

instance : IsRoutine on may randomize := by
  unfold randomize
  have (seed : Int) : IsRoutine on may (modifyRun fun r => { r with random := .ofSeed seed }) :=
    isRoutine_modifyRun (fun _ _ => rfl) fun _ _ r => .idled _ r.links r.printed r.lookups r.reads r.generation
  infer_instance

instance {name : String} {n : Nat} {kind : LinkKind} : IsRoutine on may (resolveFile name n kind) := by
  unfold resolveFile
  refine isRoutine_getRun (fun _ _ => rfl) fun r => isRoutine_then fun walk => ?_
  refine isRoutine_bind (isRoutine_modifyRun (fun _ _ => rfl) fun _ _ r =>
    .idled r.random r.links r.printed _ r.reads r.generation) fun _ => ?_
  refine isRoutine_read (fun env env' henv => ?_) fun env => ?_
  · rw [henv.library]
  · split
    · infer_instance
    · have (link : Link) : IsRoutine on may (modifyRun fun r => { r with links := r.links.push link }) :=
        isRoutine_modifyRun (fun _ _ => rfl) fun _ _ r => .idled r.random _ r.printed r.lookups r.reads r.generation
      infer_instance

instance {start : Nat} : IsRoutine on may (save start) := by
  unfold save
  refine isRoutine_then fun _ => isRoutine_then fun _ => isRoutine_take fun first hfirst => ?_
  refine isRoutine_then fun _ => isRoutine_take fun stop hstop => ?_
  refine isRoutine_then fun _ => isRoutine_then fun exec => ?_
  refine isRoutine_then fun _ => isRoutine_then fun reload => ?_
  refine isRoutine_then fun _ => isRoutine_getRun (fun _ _ => rfl) fun r => ?_
  have hbounds : (0 ≤ first ∧ first ≤ 0xFFFF) ∧ 0 ≤ stop ∧ stop ≤ memorySize :=
    ⟨hfirst.tolerating (by omega) (by omega) rfl (Or.inr rfl) rfl,
      hstop.tolerating (by omega) (by decide) rfl (Or.inr rfl) rfl⟩
  split
  · infer_instance
  · refine isRoutine_then fun _ => isRoutine_ite ?_ inferInstance
    by_cases hlt : stop < first
    · rw [if_pos hlt]
      exact inferInstanceAs (IsRoutine on may (fail .outOfRange start))
    · rw [if_neg hlt]
      refine isRoutine_then fun _ => isRoutine_modifyRun (fun _ _ => rfl) fun _ _ r => ?_
      exact .saved (by simp only; omega) (by simp only; omega)

instance {kind : LinkKind} : IsRoutine on may (putFile kind) := by
  unfold putFile
  infer_instance

instance : IsRoutine on may putBasic := by
  unfold putBasic
  infer_instance

/-! ### Names -/

instance isRoutine_macroParameters {before : List String} {steps : Nat} :
    IsRoutine on may (macroParameters before steps) := by
  induction steps generalizing before with
  | zero => exact inferInstanceAs (IsRoutine on may (pure before))
  | succ steps ih =>
    unfold macroParameters
    infer_instance

instance {start : Nat} : IsLocal (label start) := by
  unfold label
  refine isLocal_bind inferInstance fun _ => isLocal_bind inferInstance fun _ => isLocal_bind inferInstance fun _ => ?_
  refine isLocal_when inferInstance fun _ => isLocal_bind inferInstance fun _ => isLocal_bind inferInstance fun _ => ?_
  dsimp only
  split
  · infer_instance
  · refine isLocal_getRun (fun _ _ => rfl) fun _ => isLocal_bind inferInstance fun _ => isLocal_ite ?_ ?_
    · split <;> infer_instance
    · split <;> infer_instance

/-- A label whose point has been read is placed in some of the open scopes. -/
theorem acts_label [hmay : Fact (may .defining)] {c : Cursor} {spelling : String} {start : Nat} (hc : on.Starts c)
    (hs : on.Has s.cursor) (hfind : Directive.find? c.rest = some (spelling, .label)) (hcursor : s.cursor = c.skip spelling.length) :
    Acts env on may (label start) s := by
  unfold Acts label
  simp only [wp_bind, wp_peek, wp_advance, wp_getCursor, wp_ite, wp_fail, wp_setCursor, wp_getWalk, hcursor]
  generalize (Promotion.ofMark (c.skip spelling.length).peek).leaves s.walk.frames.length = left
  have hplace : on.Has (c.skip spelling.length).labelName.name.2 := by
    have hname : (c.skip spelling.length).Reaches (c.skip spelling.length).labelName := Cursor.reaches_skip _ _
    exact on.further (hcursor ▸ hs) (hname.trans (Cursor.reaches_skip _ _))
  have hstop (p : Problem) (cursor : Cursor) : s.Stops env on may (.problem p) { s with cursor } := .of (.refl s)
  split_ifs
  · exact hstop _ _
  split
  · exact hstop _ _
  simp only [wp_bind, wp_getRun, wp_position, wp_ite]
  split_ifs with hfirst
  · split
    · exact hstop _ _
    · rename_i symbols hadd
      refine ⟨hplace, .single (.labelled hmay.out hc hfind (List.drop_suffix left _) (Or.inl ⟨?_, hadd⟩))⟩
      simpa using hfirst
  · split
    · exact hstop _ _
    · rename_i hnone
      exact ⟨hplace, .single (.labelled hmay.out hc hfind (List.drop_suffix left _) (Or.inr ⟨rfl, hnone⟩))⟩

instance {full : String} {e : Expr.Evaluated} {position : Position} {conditional : Bool} {start : Nat} :
    IsLocal (define full e position conditional start) := by
  unfold define
  refine isLocal_getRun (fun _ _ => rfl) fun r => ?_
  split <;> infer_instance

instance : IsLocal assignment := by
  unfold assignment
  infer_instance

/-- The name of an assignment gets its value in the innermost scope. -/
theorem acts_define [hmay : Fact (may .defining)] {c : Cursor} {e : Expr.Evaluated} {conditional : Bool} {start : Nat}
    (hc : on.Starts c) (hname : c.atName = true) (hs : on.Has s.cursor) :
    Acts env on may (define (fullName c.name.1 s.walk.frames) e (s.walk.buffer.position env.index c.column)
      conditional start) s := by
  refine .step rfl rfl rfl ?_
  split
  · rename_i hnew
    exact .ite (fun _ => ⟨hs, .single (.assigned hmay.out hc hname hnew e.value)⟩) fun _ => ⟨hs, .refl s⟩
  · rename_i symbol hsymbol
    refine .ite (fun hsame => ?_) fun _ => .ite (fun _ => ⟨hs, .refl s⟩) fun _ => .of (.refl s)
    exact ⟨hs, .single (.reassigned hmay.out hc hname hsymbol hsame e.value)⟩

/-- An assignment where a statement starts gives its name a value. -/
theorem acts_assignment [hmay : Fact (may .defining)] (hs : on.Starts s.cursor) (hname : s.cursor.atName = true) :
    Acts env on may assignment s := by
  have hread : on.Has (s.cursor.name.2.skipBlanks.skip 1) := on.further (on.has_skip hs (Cursor.nameLength_pos hname))
    ((Cursor.reaches_skipBlanks _).trans (Cursor.reaches_skip _ 1))
  refine .step rfl rfl rfl (.step rfl rfl rfl (.step rfl rfl rfl ?_))
  refine .when hread fun t ht h₀ => .step rfl rfl rfl (.step rfl rfl rfl (.still ht fun e t₁ _ ht₁ h₁ => ?_))
  refine .still ht₁ fun _ t₂ _ ht₂ h₂ => .still ht₂ fun _ t₃ _ ht₃ h₃ => .still ht₃ fun _ t₄ _ ht₄ h₄ => ?_
  refine .still ht₄ fun _ u _ hu h₅ => ?_
  rw [← h₁, ← h₂, ← h₃, ← h₄, ← h₅]
  exact acts_define hs hname hu

/-! ### Scopes -/

section
variable {start : Nat}

theorem openScope_withMeter {kind : FrameKind} {spot : Spot} (w : Walk) (r : Run) (meter : Meter) :
    w.openScope (r.withMeter meter) kind spot =
      (w.openScope r kind spot).map fun x => (x.1, x.2.withMeter meter) := by
  unfold Walk.openScope
  split <;> rfl

instance {n : Nat} {kind : FrameKind} {spot : Spot} : IsLocal (changeWalk n fun w r => w.openScope r kind spot) :=
  isLocal_changeWalk openScope_withMeter

instance [hmay : Fact (may .scoping)] : IsRoutine on may (openBrace start) :=
  isRoutine_then fun _ =>
    isRoutine_changeWalk openScope_withMeter fun _ _ _ _ _ h => .opened (Or.inl ⟨rfl, hmay.out⟩) h

instance [hmay : Fact (may .scoping)] : IsRoutine on may (closeBrace start) := by
  refine ⟨by unfold closeBrace; infer_instance, fun env s hs => .ofFault fun w hw => ?_⟩
  obtain ⟨f, own, hown, hf, rfl⟩ := Walk.eq_of_closeBrace hw
  exact ⟨hs, .single (.closed (Or.inl hmay.out) hown hf)⟩

instance {l : Loop} {spot : Spot} : IsLocal (changeWalk start fun w r => w.startLoop r l spot) := by
  refine isLocal_changeWalk fun w r meter => ?_
  unfold Walk.startLoop
  rw [openScope_withMeter]
  split
  · rfl
  · cases w.openScope r (.loop l) spot <;> rfl

instance : IsRoutine on may readLoop := by
  unfold readLoop
  refine isRoutine_then fun _ => isRoutine_then fun _ => isRoutine_then fun name => ?_
  refine isRoutine_then fun _ => isRoutine_then fun _ => isRoutine_then fun _ => ?_
  refine isRoutine_then fun _ => isRoutine_then fun _ => isRoutine_then fun _ => ?_
  refine isRoutine_then fun _ => isRoutine_then fun _ => isRoutine_bind ?_ fun _ => inferInstance
  exact isRoutine_modify (fun _ _ => rfl) (fun _ => .refl _) (fun _ => rfl) fun _ => rfl

instance [hmay : Fact (may .looping)] : IsRoutine on may (forLoop start) := by
  rw [forLoop_eq]
  refine ⟨inferInstance, fun env s hs => (acts_routine hs).bind fun l t hrun ht => .step rfl rfl rfl ?_⟩
  obtain ⟨hend, hname, hresume⟩ := of_wp_ok wp_readLoop hrun
  exact wp_changeWalk (fun w r hstart => ⟨ht, .single (.looped hmay.out ht hend.1 hname hresume hstart)⟩)
    fun _ => .of (.refl t)

end

instance [hmay : Fact (may .stepping)] {start : Nat} : IsRoutine on may (next start) := by
  have : IsRoutine on may (changeWalk start Walk.stepLoop) := by
    refine isRoutine_changeWalk (fun w r meter => ?_) fun _ _ _ _ _ h => .stepped hmay.out h
    unfold Walk.stepLoop
    split
    · rfl
    · split
      · split <;> rfl
      · rfl
  unfold next
  infer_instance

/-! ### Conditionals and macro definitions -/

section
variable [hmay : Fact (may .turning)] {start : Nat}

instance {n : Nat} {f : List Conditional → Except Fault (List Conditional)} : IsLocal (changeConditionals n f) := by
  unfold changeConditionals
  infer_instance

instance : IsLocal condition := by
  unfold condition
  infer_instance

theorem acts_changeConditionals {n : Nat} {f : List Conditional → Except Fault (List Conditional)} (hs : on.Has s.cursor)
    (hf : ∀ conditionals, f s.walk.conditionals = .ok conditionals →
      Conditional.SameMacros s.walk.conditionals conditionals) :
    Acts env on may (changeConditionals n f) s :=
  .step rfl rfl rfl (.ofFault fun _ hresult => ⟨hs, .single (.turned hmay.out (hf _ hresult))⟩)

theorem changeConditionals_eq {n : Nat} {f : List Conditional → Except Fault (List Conditional)} {t : LineState}
    (h : changeConditionals n f env s = .ok () t) :
    ∃ conditionals, f s.walk.conditionals = .ok conditionals ∧ t = { s with walk := { s.walk with conditionals } } := by
  change (ofFault n (f s.walk.conditionals) >>= fun conditionals => setWalk { s.walk with conditionals }) env s = _ at h
  cases hf : f s.walk.conditionals with
  | error fault =>
    rw [hf] at h
    cases h
  | ok conditionals =>
    rw [hf] at h
    cases h
    exact ⟨conditionals, rfl, rfl⟩

theorem acts_condition (hs : on.Has s.cursor) (hhead : ∀ c ∈ s.walk.conditionals.head?, c.isMacro = false) :
    Acts env on may condition s := by
  refine .still hs fun _ t₁ _ ht₁ h₁ => .still ht₁ fun _ t₂ _ ht₂ h₂ => .still ht₂ fun _ t₃ _ ht₃ h₃ => ?_
  refine .still ht₃ fun _ t₄ _ ht₄ h₄ => .still ht₄ fun _ t _ ht h₅ => ?_
  rw [← h₁, ← h₂, ← h₃, ← h₄, ← h₅] at hhead
  refine (acts_changeConditionals ht ?_).bind fun _ _ _ => acts_routine
  rintro _ ⟨⟩
  exact Conditional.sameMacros_setCondition hhead

theorem acts_conditionIf {c : Prop} [Decidable c] (hs : on.Has s.cursor)
    (hhead : ∀ c ∈ s.walk.conditionals.head?, c.isMacro = false) :
    Acts env on may (if c then condition else skipStatement) s :=
  .ite (fun _ => acts_condition hs hhead) fun _ => acts_routine hs

instance : IsRoutine on may (ifBlock start) := by
  refine ⟨by unfold ifBlock; infer_instance, fun env s hs => .step rfl rfl rfl (.step rfl rfl rfl ?_)⟩
  refine (acts_changeConditionals hs fun _ h => (Conditional.sameMacros_openIf h).1).bind fun _ t hrun ht => ?_
  obtain ⟨conditionals, hopen, rfl⟩ := changeConditionals_eq hrun
  exact acts_conditionIf ht (Conditional.sameMacros_openIf hopen).2

instance : IsRoutine on may (elifBlock start) := by
  refine ⟨by unfold elifBlock; infer_instance, fun env s hs => .step rfl rfl rfl (.ofFault fun result helif => ?_)⟩
  obtain ⟨hsame, hhead⟩ := Conditional.sameMacros_startElif helif
  have hset : Acts env on may (setWalk { s.walk with conditionals := result.2 }) s :=
    ⟨hs, .single (.turned hmay.out hsame)⟩
  refine hset.bind fun _ t hrun ht => .step rfl rfl rfl ?_
  cases hrun
  exact acts_conditionIf ht hhead

instance : IsRoutine on may (elseBlock start) :=
  ⟨by unfold elseBlock; infer_instance, fun env s hs => (acts_routine hs).bind fun _ t _ ht =>
    acts_changeConditionals ht fun _ => Conditional.sameMacros_startElse⟩

instance : IsRoutine on may (endif start) :=
  ⟨by unfold endif; infer_instance, fun env s hs => (acts_routine hs).bind fun _ t _ ht =>
    acts_changeConditionals ht fun _ => Conditional.sameMacros_close⟩

instance : IsLocal (macroHeader start) := by
  unfold macroHeader
  refine isLocal_bind inferInstance fun _ => isLocal_bind inferInstance fun _ => isLocal_bind inferInstance fun _ => ?_
  refine isLocal_bind inferInstance fun _ => isLocal_bind inferInstance fun _ => isLocal_bind inferInstance fun _ => ?_
  refine isLocal_bind inferInstance fun _ => isLocal_getRun (fun _ _ => rfl) fun _ => ?_
  infer_instance

instance : IsRoutine on may (macroHeader start) := by
  refine ⟨inferInstance, fun env s hs => (acts_routine hs).bind fun _ t _ ht => .step rfl rfl rfl ?_⟩
  refine (acts_routine ht).bind fun name t _ ht => (acts_routine ht).bind fun _ t _ ht => .step rfl rfl rfl ?_
  refine (acts_routine ht).bind fun parameters u hrun hu => .step rfl rfl rfl (.step rfl rfl rfl (.step rfl rfl rfl ?_))
  have hplain := (of_wp_ok (moves_macroParameters [] (t.cursor.rest.length + 1) (by simp) env t (Nat.lt_succ_self _))
    hrun).2
  refine .step rfl rfl rfl (.ofFault fun w hstart => ?_)
  have hset : Acts env on may (setWalk w) u := by
    refine ⟨hu, .single (.begun hmay.out (fun m hm => ?_) hstart)⟩
    obtain ⟨hdefines, heq⟩ := Option.ite_none_right_eq_some.mp hm
    cases heq
    simp only [Bool.and_eq_true, beq_iff_eq] at hdefines
    exact ⟨hdefines.1.2, name, _, parameters, rfl, hplain⟩
  exact hset.bind fun _ t _ ht => .ite (fun _ => .of (.refl t)) fun _ => ⟨ht, .refl t⟩

instance : IsRoutine on may (endMacro start) := by
  constructor
  · unfold endMacro
    refine isLocal_bind inferInstance fun _ => isLocal_bind inferInstance fun _ => isLocal_bind inferInstance fun _ => ?_
    refine isLocal_bind inferInstance fun _ => ?_
    split
    · exact isLocal_modifyRun fun _ _ => rfl
    · infer_instance
  · refine fun env s hs => (acts_routine hs).bind fun _ t _ ht => .step rfl rfl rfl (.ofFault fun result hend => ?_)
    obtain ⟨definition, w⟩ := result
    have hended : Deed env on may (t.walk, t.run) (w, { t.run with macros := definition.elim t.run.macros t.run.macros.add }) :=
      .ended hmay.out hend
    cases definition with
    | some m => exact ⟨ht, .single hended⟩
    | none => exact ⟨ht, .single hended⟩

end

/-! ### Instructions -/

variable {m : Mnemonic} {start : Nat} [Fact (may .writing)]

instance {n : Int} {known : Bool} {column : Nat} : IsRoutine on may (checkZeroPage n known column) := by
  unfold checkZeroPage
  infer_instance

instance {n : Int} {known : Bool} {column : Nat} : IsRoutine on may (checkAddress n known column) := by
  unfold checkAddress
  infer_instance

instance {opcode : UInt8} : IsRoutine on may (emitImplied opcode start) := by
  unfold emitImplied
  infer_instance

instance {opcode : UInt8} {n : Int} {known : Bool} : IsRoutine on may (emitByte opcode n known start) := by
  unfold emitByte
  infer_instance

instance {opcode : UInt8} {n : Int} {known : Bool} : IsRoutine on may (emitWord opcode n known start) := by
  unfold emitWord
  infer_instance

instance : IsRoutine on may (implied m start) := by
  unfold implied
  refine isRoutine_then fun _ => isRoutine_then fun _ => ?_
  split <;> infer_instance

instance : IsRoutine on may (immediate m start) := by
  unfold immediate
  refine isRoutine_then fun _ => isRoutine_then fun _ => ?_
  split <;> infer_instance

instance {opcode : UInt8} : IsRoutine on may (accumulator opcode start) := by
  unfold accumulator
  infer_instance

instance {opcode : UInt8} {target : Int} {known : Bool} {column : Nat} :
    IsRoutine on may (branch opcode target known start column) := by
  unfold branch
  exact isRoutine_getRun (fun _ _ => rfl) fun _ => inferInstance

variable {n : Int} {known : Bool} {bracket : Nat}

instance : IsRoutine on may (indexedIndirect m n known start bracket) := by
  unfold indexedIndirect
  refine isRoutine_then fun _ => isRoutine_then fun _ => isRoutine_then fun _ => ?_
  refine isRoutine_when_read inferInstance inferInstance fun _ => isRoutine_then fun _ => ?_
  refine isRoutine_then fun _ => isRoutine_then fun _ => isRoutine_when inferInstance fun _ => ?_
  refine isRoutine_then fun _ => isRoutine_then fun _ => isRoutine_then fun _ => ?_
  refine isRoutine_then fun _ => isRoutine_then fun _ => ?_
  split <;> infer_instance

instance : IsRoutine on may (plainIndirect m n known start bracket) := by
  unfold plainIndirect
  refine isRoutine_then fun _ => isRoutine_then fun _ => ?_
  split
  · exact isRoutine_then fun _ => isRoutine_getRun (fun _ _ => rfl) fun _ => inferInstance
  · infer_instance
  · infer_instance

instance : IsRoutine on may (indirectIndexed m n known start bracket) := by
  unfold indirectIndexed
  refine isRoutine_getCursor (fun c => isLocal_bind inferInstance fun _ => ?_) fun c hc => isRoutine_then fun _ => ?_
  · split <;> infer_instance
  · have hset : IsRoutine on may (setCursor ((c.skip 1).skipBlanks.skip 1)) := isRoutine_setCursor
      (on.further hc ((c.reaches_skip 1).trans ((Cursor.reaches_skipBlanks _).trans (Cursor.reaches_skip _ 1))))
    split <;> infer_instance

instance : IsRoutine on may (indirect m start) := by
  unfold indirect
  refine isRoutine_then fun _ => isRoutine_then fun _ => isRoutine_then fun _ => ?_
  refine isRoutine_then fun _ => isRoutine_then fun _ => isRoutine_then fun _ => ?_
  refine isRoutine_then fun _ => ?_
  split <;> infer_instance

instance : IsRoutine on may indexRegister := by
  unfold indexRegister
  refine isRoutine_then fun _ => isRoutine_then fun _ => isRoutine_then fun _ => ?_
  refine isRoutine_when inferInstance fun _ => isRoutine_when inferInstance fun _ => isRoutine_then fun _ => ?_
  refine isRoutine_then fun _ => ?_
  split <;> infer_instance

instance : IsRoutine on may addressModes := by
  unfold addressModes
  infer_instance

instance {modes : AddressModes} {begin : Nat} : IsRoutine on may (emitAddress m modes n known start begin) := by
  unfold emitAddress
  refine isRoutine_then fun _ => isRoutine_then fun _ => ?_
  split <;> infer_instance

instance : IsRoutine on may (address m start) := by
  unfold address
  refine isRoutine_then fun _ => isRoutine_then fun _ => isRoutine_then fun _ => ?_
  refine isRoutine_then fun _ => isRoutine_then fun _ => ?_
  split <;> infer_instance

instance : IsRoutine on may (bracketed m start) := by
  refine ⟨?_, fun env s hs => .step rfl rfl rfl ((acts_routine hs).bind fun found t _ ht => ?_)⟩
  · unfold bracketed
    refine isLocal_get (fun _ _ => rfl) fun before => ?_
    have : IsLocal (modify fun s => { s with
        cursor := before.cursor, parts := before.parts, run := { s.run with random := before.run.random } }) :=
      isLocal_modify fun _ _ => rfl
    infer_instance
  · refine .ite (fun _ => ?_) fun _ => ⟨ht, .refl t⟩
    have hback : Acts env on may (modify fun t => { t with
        cursor := s.cursor, parts := s.parts, run := { t.run with random := s.run.random } }) t :=
      ⟨hs, .single (.idled _ t.run.links t.run.printed t.run.lookups t.run.reads t.run.generation)⟩
    exact hback.bind fun _ _ _ => acts_routine

instance : IsRoutine on may (operand m start) := by
  unfold operand
  refine isRoutine_then fun _ => ?_
  split
  · infer_instance
  · refine isRoutine_then fun _ => isRoutine_getRun (fun _ _ => rfl) fun _ => ?_
    dsimp only
    split <;> infer_instance

instance : IsRoutine on may (instruction m start) := by
  refine ⟨isLocal_andThen (IsRoutine.isLocal on may) fun _ _ => rfl, fun env s hs => ?_⟩
  unfold Acts instruction
  rw [wp_andThen]
  exact wp_mono (acts_routine hs : Acts env on may (operand m start) s) (fun _ _ ht => ht)
    fun _ _ ht => ⟨ht.deeds, ht.awaits⟩

end

/-! ### Arguments of macros and texts -/

instance isLocal_bindEach {first : Bool} {parameters : List String} : IsLocal (bindEach first parameters) := by
  induction parameters generalizing first with
  | nil => exact inferInstanceAs (IsLocal (pure ()))
  | cons parameter parameters ih =>
    have hbind (full : String) : IsLocal (do
        let e ← evaluate
        pushPart e.node
        if e.known then modifySymbols (·.add full e.value false none)
        bindEach false parameters) := inferInstance
    have hrelease : IsLocal (do
        let full := fullName parameter (← getWalk).frames
        if ← isSecondPass then modifySymbols (·.erase full)
        let e ← evaluate
        pushPart e.node
        if e.known then modifySymbols (·.add full e.value false none)
        bindEach false parameters) := inferInstance
    unfold bindEach
    infer_instance

instance {parameters : List String} : IsLocal (bindArguments parameters) := by
  unfold bindArguments
  infer_instance

instance : IsLocal openText := by
  unfold openText
  refine isLocal_bind inferInstance fun _ => isLocal_bind inferInstance fun _ => isLocal_bind inferInstance fun _ => ?_
  refine isLocal_read (fun env env' henv => by rw [henv.allowance]) fun env => ?_
  have : IsLocal (modifyRun fun r => { r with depth.evals := r.depth.evals + 1 }) := isLocal_modifyRun fun _ _ => rfl
  infer_instance

end LineM
end Asm6502
