/-
# How the trees of statements are laid out

While a statement is read, the trees inside it are put one after the other, each on
the columns that were passed meanwhile. What a step does with them is the same
whatever it does to the walk and the run, so most steps are seen to lay out their
trees by how they are made up. The statements that put a tree elsewhere are looked
at one by one: labels, assignments, loops, instructions and macro calls.

Key definitions: `LineState.Lays`, `LineM.IsLaying`.
Key theorems: `LineM.isLaying_perform`.
-/
import Asm6502.Proofs.Statement.Composed
import Asm6502.Proofs.Tree.Expression
import Asm6502.Proofs.Walk.Nesting

namespace Asm6502

open Node

/-- What a step does with the trees inside a statement: it adds some that stand from
the cursor on up to `hi`. -/
structure LineState.Lays (s t : LineState) (hi : Nat) : Prop where
  nodes : t.nodes = s.nodes
  parts : ∃ new, t.parts.toList = s.parts.toList ++ new ∧ Row s.cursor.column hi new

namespace LineState

variable {s t u : LineState} {hi : Nat}

theorem Lays.trans (h : s.Lays t t.cursor.column) (h' : t.Lays u hi) : s.Lays u hi := by
  obtain ⟨new, hnew, hrow⟩ := h.parts
  obtain ⟨new', hnew', hrow'⟩ := h'.parts
  refine ⟨h'.nodes.trans h.nodes, new ++ new', ?_, hrow.append hrow'⟩
  rw [hnew', hnew, List.append_assoc]

theorem lays_of_eq (hnodes : t.nodes = s.nodes) (hparts : t.parts = s.parts) (hle : s.cursor.column ≤ hi) :
    s.Lays t hi := ⟨hnodes, [], by rw [hparts, List.append_nil], .nil hle⟩

end LineState

namespace LineM

-- the statements are long, and so are the searches for their instances
set_option synthInstance.maxSize 1024

variable {α β : Type}

/-- Whether a step adds trees one after the other, each on the columns that are passed
meanwhile. -/
class IsLaying (m : LineM α) : Prop where
  lays : ∀ env s, wp m env s (fun _ t => s.Lays t t.cursor.column) fun _ t => ∃ hi, s.Lays t hi

/-- Whether a step adds no trees and does not go back. -/
class IsMoving (m : LineM α) : Prop where
  moves : ∀ env s, wp m env s
    (fun _ t => t.nodes = s.nodes ∧ t.parts = s.parts ∧ s.cursor.column ≤ t.cursor.column)
    fun _ t => t.nodes = s.nodes ∧ t.parts = s.parts

/-! ### Putting steps together -/

theorem isMoving_bind {x : LineM β} {f : β → LineM α} (hx : IsMoving x) (hf : ∀ b, IsMoving (f b)) :
    IsMoving (x >>= f) where
  moves env s := by
    rw [wp_bind]
    refine wp_mono (hx.moves env s) (fun b t ht => ?_) fun _ _ h => h
    refine wp_mono ((hf b).moves env t) (fun _ u hu => ?_) fun _ u hu => ?_
    · exact ⟨hu.1.trans ht.1, hu.2.1.trans ht.2.1, ht.2.2.trans hu.2.2⟩
    · exact ⟨hu.1.trans ht.1, hu.2.trans ht.2.1⟩

instance {x : LineM β} {f : β → LineM α} [hx : IsMoving x] [hf : ∀ b, IsMoving (f b)] : IsMoving (x >>= f) :=
  isMoving_bind hx hf

instance {c : Prop} [Decidable c] {x y : LineM α} [hx : IsMoving x] [hy : IsMoving y] :
    IsMoving (if c then x else y) := by
  split
  · exact hx
  · exact hy

instance (priority := low) {m : LineM α} [h : IsMoving m] : IsLaying m where
  lays env s := by
    refine wp_mono (h.moves env s) (fun _ t ht => ?_) fun _ t ht => ⟨s.cursor.column, ?_⟩
    · exact LineState.lays_of_eq ht.1 ht.2.1 ht.2.2
    · exact LineState.lays_of_eq ht.1 ht.2 le_rfl

/-- The last step that lays out its trees, on the way from `s`. -/
theorem wp_lays {m : LineM α} {env : Setting} {s t : LineState} (hm : IsLaying m) (h : s.Lays t t.cursor.column) :
    wp m env t (fun _ u => s.Lays u u.cursor.column) fun _ u => ∃ hi, s.Lays u hi := by
  refine wp_mono (hm.lays env t) (fun _ _ hu => h.trans hu) fun _ _ hu => ?_
  obtain ⟨hi, hu⟩ := hu
  exact ⟨hi, h.trans hu⟩

/-- A step that lays out its trees, before others, on the way from `s`. -/
theorem wp_lays_bind {x : LineM β} {f : β → LineM α} {env : Setting} {s t : LineState} {Q : α → LineState → Prop}
    {E : Stop → LineState → Prop} (hx : IsLaying x) (h : s.Lays t t.cursor.column)
    (hE : ∀ stop u hi, s.Lays u hi → E stop u) (hf : ∀ b u, s.Lays u u.cursor.column → wp (f b) env u Q E) :
    wp (x >>= f) env t Q E := by
  rw [wp_bind]
  refine wp_mono (hx.lays env t) (fun b u hu => hf b u (h.trans hu)) fun stop u hu => ?_
  obtain ⟨hi, hu⟩ := hu
  exact hE stop u hi (h.trans hu)

theorem isLaying_bind {x : LineM β} {f : β → LineM α} (hx : IsLaying x) (hf : ∀ b, IsLaying (f b)) :
    IsLaying (x >>= f) where
  lays env s := by
    refine wp_lays_bind hx (LineState.lays_of_eq rfl rfl le_rfl) (fun _ _ hi h => ⟨hi, h⟩) fun b t ht => ?_
    exact wp_lays (hf b) ht

instance {x : LineM β} {f : β → LineM α} [hx : IsLaying x] [hf : ∀ b, IsLaying (f b)] : IsLaying (x >>= f) :=
  isLaying_bind hx hf

theorem isLaying_ite {c : Prop} [Decidable c] {x y : LineM α} (hx : IsLaying x) (hy : IsLaying y) :
    IsLaying (if c then x else y) := by
  split
  · exact hx
  · exact hy

instance {c : Prop} [Decidable c] {x y : LineM α} [hx : IsLaying x] [hy : IsLaying y] :
    IsLaying (if c then x else y) := isLaying_ite hx hy

/-- A step that is made under a condition, before others. -/
theorem isLaying_when {c : Prop} [Decidable c] {x : LineM Unit} {f : Unit → LineM α} (hx : IsLaying x)
    (hf : ∀ b, IsLaying (f b)) : IsLaying (if c then x >>= f else f ()) :=
  isLaying_ite (isLaying_bind hx hf) (hf ())

theorem isLaying_andThen {m : LineM α} {last : LineState → LineState} (hm : IsLaying m)
    (hnodes : ∀ t, (last t).nodes = t.nodes) (hparts : ∀ t, (last t).parts = t.parts)
    (hcursor : ∀ t, (last t).cursor = t.cursor) : IsLaying (m.andThen last) where
  lays env s := by
    have hlast {t : LineState} {hi : Nat} (h : s.Lays t hi) : s.Lays (last t) hi := by
      obtain ⟨new, hnew, hrow⟩ := h.parts
      exact ⟨(hnodes t).trans h.nodes, new, by rw [hparts, hnew], hrow⟩
    rw [wp_andThen]
    refine wp_mono (hm.lays env s) (fun _ t ht => ?_) fun _ t ht => ht.imp fun _ h => hlast h
    rw [hcursor]
    exact hlast ht

/-! ### Primitive steps -/

theorem isMoving_modify {f : LineState → LineState}
    (hf : ∀ s, (f s).nodes = s.nodes ∧ (f s).parts = s.parts ∧ s.cursor.column ≤ (f s).cursor.column) :
    IsMoving (modify f : LineM Unit) := ⟨fun _ s => hf s⟩

instance {a : α} : IsMoving (pure a : LineM α) := ⟨fun _ _ => ⟨rfl, rfl, le_rfl⟩⟩
instance : IsMoving (get : LineM LineState) := ⟨fun _ _ => ⟨rfl, rfl, le_rfl⟩⟩
instance : IsMoving (read : LineM Setting) := ⟨fun _ _ => ⟨rfl, rfl, le_rfl⟩⟩
instance : IsMoving getRun := ⟨fun _ _ => ⟨rfl, rfl, le_rfl⟩⟩
instance : IsMoving getWalk := ⟨fun _ _ => ⟨rfl, rfl, le_rfl⟩⟩
instance : IsMoving getCursor := ⟨fun _ _ => ⟨rfl, rfl, le_rfl⟩⟩
instance : IsMoving peek := ⟨fun _ _ => ⟨rfl, rfl, le_rfl⟩⟩
instance : IsMoving column := ⟨fun _ _ => ⟨rfl, rfl, le_rfl⟩⟩
instance : IsMoving isSecondPass := ⟨fun _ _ => ⟨rfl, rfl, le_rfl⟩⟩
instance {n : Nat} : IsMoving (position n) := ⟨fun _ _ => ⟨rfl, rfl, le_rfl⟩⟩
instance {n : Nat} : IsMoving (spot n) := ⟨fun _ _ => ⟨rfl, rfl, le_rfl⟩⟩
instance {m : Mnemonic} {mode : Mode} : IsMoving (opcode? m mode) := ⟨fun _ _ => ⟨rfl, rfl, le_rfl⟩⟩
instance {n : Nat} : IsMoving (advance n) := isMoving_modify fun s => ⟨rfl, rfl, s.cursor.column_le_skip n⟩
instance : IsMoving skipBlanks := isMoving_modify fun s => ⟨rfl, rfl, s.cursor.column_le_skipBlanks⟩
instance : IsMoving skipStatement := isMoving_modify fun s => ⟨rfl, rfl, s.cursor.column_le_skip _⟩
instance {walk : Walk} : IsMoving (setWalk walk) := isMoving_modify fun _ => ⟨rfl, rfl, le_rfl⟩
instance {f : Run → Run} : IsMoving (modifyRun f) := isMoving_modify fun _ => ⟨rfl, rfl, le_rfl⟩
instance {f : ObjectCode → ObjectCode} : IsMoving (modifyCode f) := isMoving_modify fun _ => ⟨rfl, rfl, le_rfl⟩
instance {f : SymbolTable → SymbolTable} : IsMoving (modifySymbols f) := isMoving_modify fun _ => ⟨rfl, rfl, le_rfl⟩
instance {stop : Stop} : IsMoving (throw stop : LineM α) := ⟨fun _ _ => ⟨rfl, rfl⟩⟩
instance {fault : Fault} {n : Nat} : IsMoving (fail fault n : LineM α) := ⟨fun _ _ => ⟨rfl, rfl⟩⟩

instance : IsMoving atEnd := inferInstanceAs (IsMoving (do
  skipBlanks
  return (← getCursor).atStatementEnd))

instance {n : Nat} {x : Except Fault α} : IsMoving (ofFault n x) := by
  cases x with
  | ok a => exact inferInstanceAs (IsMoving (pure a))
  | error fault => exact inferInstanceAs (IsMoving (fail fault n))

instance {bytes : List (UInt8 × Bool)} {n : Nat} : IsMoving (write bytes n) where
  moves env s := by
    rw [wp_write]
    dsimp only
    split
    · exact ⟨rfl, rfl, le_rfl⟩
    · exact ⟨rfl, rfl⟩

instance isMoving_writeEach {known : Bool} {n : Nat} {bytes : List UInt8} : IsMoving (writeEach known n bytes) := by
  induction bytes with
  | nil => exact inferInstanceAs (IsMoving (pure ()))
  | cons byte bytes ih => exact isMoving_bind inferInstance fun _ => ih

instance {n : Nat} {f : Walk → Run → Except Fault (Walk × Run)} : IsMoving (changeWalk n f) :=
  ⟨fun _ _ => wp_changeWalk (fun _ _ _ => ⟨rfl, rfl, le_rfl⟩) fun _ => ⟨rfl, rfl⟩⟩

instance : IsMoving expectEnd := by
  unfold expectEnd
  refine isMoving_bind inferInstance fun _ => isMoving_bind inferInstance fun cursor => ?_
  split <;> infer_instance

instance : IsMoving expectComma := by
  unfold expectComma
  infer_instance

/-- Where a name is expected, and what comes after it. -/
theorem wp_expectName_of_atName {env : Setting} {s : LineState} {Q : String → LineState → Prop}
    {E : Stop → LineState → Prop}
    (hQ : s.cursor.skipBlanks.atName = true →
      Q s.cursor.skipBlanks.name.1 { s with cursor := s.cursor.skipBlanks.name.2 })
    (hE : ∀ stop, E stop { s with cursor := s.cursor.skipBlanks }) : wp expectName env s Q E := by
  unfold expectName
  simp only [wp_bind, wp_skipBlanks, wp_getCursor, wp_ite, wp_fail, wp_setCursor, wp_pure]
  split_ifs with hname
  · exact hE _
  · exact hQ (by simpa using hname)

theorem column_lt_name {c : Cursor} (h : c.atName = true) : c.column < c.name.2.column := by
  refine Cursor.column_lt_skip (Cursor.nameLength_pos h) fun hnil => ?_
  rw [Cursor.atName, hnil] at h
  cases h

/-- The tree of an expression is put on the columns of the expression. -/
instance isLaying_evaluate_pushPart {f : Expr.Evaluated → Unit → LineM α} [hf : ∀ e b, IsLaying (f e b)] :
    IsLaying (evaluate >>= fun e => pushPart e.node >>= f e) where
  lays env s := by
    rw [wp_bind, wp_evaluate]
    refine ⟨fun e after he => ?_, fun _ _ _ => ⟨_, LineState.lays_of_eq rfl rfl le_rfl⟩⟩
    rw [wp_bind, wp_pushPart]
    have hlays : s.Lays { evaluated s after with cursor := e.stop, parts := s.parts.push e.node } e.stop.column :=
      ⟨rfl, [e.node], Array.toList_push, Expr.row_of_evaluate he⟩
    exact wp_lays (hf e ()) hlays

/-! ### Arguments and items -/

instance {rule : Rule α} {x : Argument α} : IsLaying (x.take rule) := by
  unfold Argument.take
  split <;> split <;> infer_instance

instance {rule : Rule α} {x : Argument α} : IsLaying (x.take? rule) := by
  unfold Argument.take?
  split
  · infer_instance
  · rw [← bind_pure_comp]
    infer_instance

instance {convert : Value → Except Fault α} : IsLaying (argument convert) := by
  unfold argument
  infer_instance

instance : IsLaying integer := inferInstanceAs (IsLaying (argument Value.integer))
instance : IsLaying number := inferInstanceAs (IsLaying (argument Value.number))
instance : IsLaying text := inferInstanceAs (IsLaying (argument Value.text))

/-- A value that is no text is left to be read again. -/
theorem lays_evaluate_text {env : Setting} {s : LineState} {d : Cursor} (hd : s.cursor.Reaches d) :
    wp evaluate env { s with cursor := d }
      (fun e t => wp
        (match e.value with
          | .str text => do
            pushPart e.node
            return some text
          | .num _ => do
            setCursor s.cursor
            return none) env t (fun _ t => s.Lays t t.cursor.column) fun _ t => ∃ hi, s.Lays t hi)
      fun _ t => ∃ hi, s.Lays t hi := by
  rw [wp_evaluate]
  refine ⟨fun e after he => ?_, fun _ _ _ => ⟨_, LineState.lays_of_eq rfl rfl le_rfl⟩⟩
  cases e.value with
  | num x => exact LineState.lays_of_eq rfl rfl le_rfl
  | str text => exact ⟨rfl, [e.node], Array.toList_push, (Expr.row_of_evaluate he).mono hd.column_le le_rfl⟩

instance : IsLaying optionalText where
  lays env s := by
    unfold optionalText
    simp only [wp_bind, wp_getCursor, wp_get, wp_atEnd, wp_ite, wp_pure, wp_peek, wp_advance]
    split_ifs
    · exact LineState.lays_of_eq rfl rfl s.cursor.column_le_skipBlanks
    · exact LineState.lays_of_eq rfl rfl s.cursor.column_le_skipBlanks
    · exact lays_evaluate_text (s.cursor.reaches_skipBlanks.trans (Cursor.reaches_skip _ _))
    · exact lays_evaluate_text s.cursor.reaches_skipBlanks

instance isLaying_eachSeparated {item : LineM Unit} [hitem : IsLaying item] {steps : Nat} :
    IsLaying (eachSeparated item steps) := by
  induction steps with
  | zero => exact hitem
  | succ steps ih =>
    unfold eachSeparated
    infer_instance

instance {item : LineM Unit} [IsLaying item] : IsLaying (separated item) := by
  unfold separated
  infer_instance

/-! ### Data and messages -/

instance isLaying_writeText {n : Nat} {cs : List Char} : IsLaying (writeText n cs) := by
  induction cs with
  | nil => exact inferInstanceAs (IsLaying (pure ()))
  | cons c cs ih =>
    unfold writeText
    infer_instance

instance {width : Nat} {e : Expr.Evaluated} {n : Nat} : IsLaying (writeValue width e n) := by
  unfold writeValue
  split <;> infer_instance

instance {width : Nat} : IsLaying (equ width) := by
  unfold equ
  infer_instance

instance : IsLaying assert := by
  unfold assert
  infer_instance

instance isLaying_printItems {before : List String} {steps : Nat} : IsLaying (printItems before steps) := by
  induction steps generalizing before with
  | zero => exact inferInstanceAs (IsLaying (pure before))
  | succ steps ih =>
    unfold printItems
    infer_instance

instance : IsLaying print := by
  unfold print
  infer_instance

instance {start : Nat} : IsLaying (error start) := by
  unfold error
  infer_instance

/-! ### Placing code -/

instance {n : Nat} {f : ObjectCode → Except MemoryFault ObjectCode} : IsLaying (changeCode n f) := by
  unfold changeCode
  refine isLaying_bind inferInstance fun run => ?_
  split <;> infer_instance

instance : IsLaying org := by
  unfold org
  infer_instance

instance : IsLaying cpu := by
  unfold cpu
  infer_instance

instance : IsLaying guardAddress := by
  unfold guardAddress
  infer_instance

instance : IsLaying clear := by
  unfold clear
  infer_instance

instance {start : Nat} : IsLaying (skip start) := by
  unfold skip
  infer_instance

instance {start : Nat} : IsLaying (skipTo start) := by
  unfold skipTo
  infer_instance

instance {start : Nat} : IsLaying (align start) := by
  unfold align
  infer_instance

instance : IsLaying mapCharacters := by
  unfold mapCharacters
  refine isLaying_bind inferInstance fun _ => isLaying_bind inferInstance fun _ => ?_
  refine isLaying_bind inferInstance fun _ => isLaying_bind inferInstance fun _ => ?_
  refine isLaying_bind inferInstance fun _ => isLaying_bind inferInstance fun third => ?_
  refine isLaying_bind inferInstance fun _ => ?_
  split <;> infer_instance

instance {start : Nat} : IsLaying (copyBlock start) := by
  unfold copyBlock
  infer_instance

instance : IsLaying randomize := by
  unfold randomize
  infer_instance

/-! ### Files -/

instance {name : String} {n : Nat} {kind : LinkKind} : IsLaying (resolveFile name n kind) := by
  unfold resolveFile
  refine isLaying_bind inferInstance fun run => isLaying_bind inferInstance fun walk => ?_
  refine isLaying_bind inferInstance fun _ => isLaying_bind inferInstance fun env => ?_
  split <;> infer_instance

instance {path : Path} {n : Nat} : IsLaying (readFile path n) := by
  unfold readFile
  refine isLaying_bind inferInstance fun env => isLaying_bind inferInstance fun _ => ?_
  split <;> infer_instance

instance {allowance : Allowance} {buffer : Buffer} {frames : List Frame} :
    IsMoving (runBuffer allowance buffer frames) where
  moves env s := by
    unfold wp runBuffer
    cases env.runBuffer allowance buffer frames s.run with
    | some run => exact ⟨rfl, rfl, le_rfl⟩
    | none => exact ⟨rfl, rfl⟩

instance {m : LineM α} [hm : IsLaying m] : IsLaying (included m) := by
  unfold included
  have : IsLaying (m.andThen fun s => { s with run.depth.includes := s.run.depth.includes - 1 }) :=
    isLaying_andThen hm (fun _ => rfl) (fun _ => rfl) fun _ => rfl
  infer_instance

instance {start : Nat} : IsLaying (includeFile start) := by
  unfold includeFile
  refine isLaying_bind inferInstance fun argument => isLaying_bind inferInstance fun name => ?_
  refine isLaying_bind inferInstance fun _ => isLaying_bind inferInstance fun walk => ?_
  refine isLaying_when inferInstance fun _ => isLaying_bind inferInstance fun env => ?_
  split
  · infer_instance
  · refine isLaying_bind inferInstance fun path => isLaying_bind inferInstance fun bytes => ?_
    split <;> infer_instance

instance {start : Nat} : IsLaying (includeBytes start) := by
  unfold includeBytes
  infer_instance

instance {start : Nat} : IsLaying (save start) := by
  unfold save
  refine isLaying_bind inferInstance fun name => isLaying_bind inferInstance fun _ => ?_
  refine isLaying_bind inferInstance fun first => isLaying_bind inferInstance fun _ => ?_
  refine isLaying_bind inferInstance fun stop => isLaying_bind inferInstance fun _ => ?_
  refine isLaying_bind inferInstance fun exec => isLaying_bind inferInstance fun _ => ?_
  refine isLaying_bind inferInstance fun reload => isLaying_bind inferInstance fun _ => ?_
  refine isLaying_bind inferInstance fun run => ?_
  split <;> infer_instance

instance {kind : LinkKind} : IsLaying (putFile kind) := by
  unfold putFile
  infer_instance

instance : IsLaying putBasic := by
  unfold putBasic
  infer_instance

/-! ### Blocks -/

instance {start : Nat} : IsLaying (openBrace start) := by
  unfold openBrace
  infer_instance

instance {start : Nat} : IsLaying (closeBrace start) := by
  unfold closeBrace
  infer_instance

instance {start : Nat} : IsLaying (next start) := by
  unfold next
  infer_instance

instance {n : Nat} {f : List Conditional → Except Fault (List Conditional)} : IsLaying (changeConditionals n f) := by
  unfold changeConditionals
  infer_instance

/-- The tree of a condition is put on the columns of the condition, after its end has
been passed. -/
instance : IsLaying condition where
  lays env s := by
    unfold condition
    rw [wp_bind, wp_skipBlanks, wp_bind, wp_column, wp_bind, wp_evaluate]
    refine ⟨fun e after he => ?_, fun _ _ _ => ⟨_, LineState.lays_of_eq rfl rfl le_rfl⟩⟩
    have hrow := (Expr.row_of_evaluate he).mono s.cursor.column_le_skipBlanks e.stop.column_le_skipBlanks
    rw [wp_bind, wp_ofFault]
    refine ⟨fun n hn => ?_, fun _ _ => ⟨_, LineState.lays_of_eq rfl rfl le_rfl⟩⟩
    rw [wp_bind]
    refine wp_expectEnd (fun _ => ?_) fun _ => ⟨_, LineState.lays_of_eq rfl rfl le_rfl⟩
    exact ⟨rfl, [e.node], Array.toList_push, hrow⟩

instance {start : Nat} : IsLaying (ifBlock start) := by
  unfold ifBlock
  infer_instance

instance {start : Nat} : IsLaying (elifBlock start) := by
  unfold elifBlock
  infer_instance

instance {start : Nat} : IsLaying (elseBlock start) := by
  unfold elseBlock
  infer_instance

instance {start : Nat} : IsLaying (endif start) := by
  unfold endif
  infer_instance

/-- The tree of a name is put on the columns of the name. -/
instance isLaying_name {f : Nat → String → Unit → LineM α} [hf : ∀ n name b, IsLaying (f n name b)] :
    IsLaying (skipBlanks >>= fun _ => column >>= fun n => expectName >>= fun name =>
      pushPart (.leaf .symbol name n) >>= f n name) where
  lays env s := by
    rw [wp_bind, wp_skipBlanks, wp_bind, wp_column, wp_bind]
    refine wp_expectName_of_atName (fun hname => ?_) fun _ => ⟨_, LineState.lays_of_eq rfl rfl le_rfl⟩
    simp only [Cursor.skipBlanks_skipBlanks] at hname ⊢
    rw [wp_bind, wp_pushPart]
    have hrow : Row s.cursor.column s.cursor.skipBlanks.name.2.column
        [.leaf .symbol s.cursor.skipBlanks.name.1 s.cursor.skipBlanks.column] :=
      .leaf (fun h => by cases h) (fun h => by cases h) s.cursor.column_le_skipBlanks (column_lt_name hname)
    have hlays : s.Lays { s with
        cursor := s.cursor.skipBlanks.name.2
        parts := s.parts.push (.leaf .symbol s.cursor.skipBlanks.name.1 s.cursor.skipBlanks.column) }
        s.cursor.skipBlanks.name.2.column := ⟨rfl, _, Array.toList_push, hrow⟩
    exact wp_lays (hf _ _ ()) hlays

instance isLaying_macroParameters {before : List String} {steps : Nat} :
    IsLaying (macroParameters before steps) := by
  induction steps generalizing before with
  | zero => exact inferInstanceAs (IsLaying (pure before))
  | succ steps ih =>
    unfold macroParameters
    infer_instance

instance {start : Nat} : IsLaying (macroHeader start) := by
  unfold macroHeader
  infer_instance

instance {start : Nat} : IsLaying (endMacro start) := by
  unfold endMacro
  refine isLaying_bind inferInstance fun _ => isLaying_bind inferInstance fun walk => ?_
  refine isLaying_bind inferInstance fun x => isLaying_bind inferInstance fun _ => ?_
  split <;> infer_instance

/-- A directive lays out its trees, unless it is a label, a loop or an `ASM`. -/
theorem isLaying_perform {d : Directive} {start : Nat} (hlabel : d ≠ .label) (hloop : d ≠ .forLoop) (hasm : d ≠ .asm) :
    IsLaying (perform d start) := by
  have hcomment : IsMoving (do setCursor (← getCursor).skipLine) :=
    ⟨fun _ s => ⟨rfl, rfl, s.cursor.column_le_skip _⟩⟩
  cases d with
  | label => exact absurd rfl hlabel
  | forLoop => exact absurd rfl hloop
  | asm => exact absurd rfl hasm
  | comment =>
    unfold perform
    infer_instance
  | _ =>
    unfold perform
    infer_instance

end LineM
end Asm6502
