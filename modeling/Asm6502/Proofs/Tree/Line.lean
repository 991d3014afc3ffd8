/-
# How the trees of a line are built

A statement adds one tree at most, which stands on the columns of the statement. An
instruction adds its tree even if it fails, and so does a macro call. So the trees of
a line stand one after the other. A line that executes an `ASM` is left out, because
the tree of a text has columns of its own.

Key definitions: `LineState.Grows`, `LineM.Builds`, `LineM.IsOperand`, `LineState.IsPlain`.
Key theorems: `LineM.builds_instruction`, `LineM.builds_statement`,
`LineM.row_statements`.
-/
import Asm6502.Proofs.Tree.Statement
import Asm6502.Proofs.Walk.Body
import Asm6502.Proofs.Walk.Straight

namespace Asm6502

open Node

/-! ### Trees of statements -/

/-- What a step does with the trees of a line: it adds some that stand from `lo` up to
`hi`. -/
def LineState.Grows (lo : Nat) (s t : LineState) (hi : Nat) : Prop :=
  ∃ new, t.nodes.toList = s.nodes.toList ++ new ∧ Row lo hi new

namespace LineState

variable {lo mid hi : Nat} {s t u : LineState}

theorem grows_of_eq (h : t.nodes = s.nodes) (hle : lo ≤ hi) : s.Grows lo t hi :=
  ⟨[], by rw [h, List.append_nil], .nil hle⟩

theorem Grows.trans (h : s.Grows lo t mid) (h' : t.Grows mid u hi) : s.Grows lo u hi := by
  obtain ⟨new, hnew, hrow⟩ := h
  obtain ⟨new', hnew', hrow'⟩ := h'
  exact ⟨new ++ new', by rw [hnew', hnew, List.append_assoc], hrow.append hrow'⟩

/-- A tree is added that is made of what was laid out. -/
theorem Lays.grows {kind : NodeKind} {text : String} {start : Nat} (h : s.Lays t hi) (hparts : s.parts = #[])
    (hline : kind ≠ .line) (hoperator : kind ≠ .binaryOp) (hsymbol : kind ≠ .symbol) (hlt : start < s.cursor.column)
    (hnodes : u.nodes = t.nodes.push (.mk kind text start t.parts.toList)) : s.Grows start u hi := by
  obtain ⟨new, hnew, hrow⟩ := h.parts
  rw [hparts, List.nil_append] at hnew
  refine ⟨[.mk kind text start new], by rw [hnodes, Array.toList_push, h.nodes, hnew], ?_⟩
  exact .plain hline hoperator (fun h => absurd h hsymbol) le_rfl (hlt.trans_le hrow.le) (hrow.mono hlt.le le_rfl)
    (.nil le_rfl)

end LineState

namespace LineM

-- the statements are long, and so are the searches for their instances
set_option synthInstance.maxSize 1024

variable {α β : Type} {env : Setting} {s t : LineState} {start : Nat}

/-- Whether a step adds trees from `lo` on up to where it ends. -/
def Builds (lo : Nat) (m : LineM α) (env : Setting) (s : LineState) : Prop :=
  wp m env s (fun _ t => s.Grows lo t t.cursor.column) fun _ t => ∃ hi, s.Grows lo t hi

/-- Steps that add no trees, after those that do. -/
theorem wp_grows_moving {m : LineM α} [hm : IsMoving m] {lo : Nat} (h : s.Grows lo t t.cursor.column) :
    wp m env t (fun _ u => s.Grows lo u u.cursor.column) fun _ u => ∃ hi, s.Grows lo u hi := by
  obtain ⟨new, hnew, hrow⟩ := h
  refine wp_mono (hm.moves env t) (fun _ u hu => ?_) fun _ u hu => ?_
  · exact ⟨new, by rw [hu.1, hnew], hrow.mono le_rfl hu.2.2⟩
  · exact ⟨_, new, by rw [hu.1, hnew], hrow⟩

theorem builds_fail {fault : Fault} {n : Nat} : Builds start (fail fault n : LineM α) env s :=
  ⟨start, LineState.grows_of_eq rfl le_rfl⟩

/-! ### Labels, assignments and loops -/

theorem builds_label (hparts : s.parts = #[]) (hlt : start < s.cursor.column) : Builds start (label start) env s := by
  have hstays (u : LineState) (hu : u.nodes = s.nodes) : ∃ hi, s.Grows start u hi :=
    ⟨start, LineState.grows_of_eq hu le_rfl⟩
  unfold Builds label
  simp only [wp_bind, wp_peek, wp_advance, wp_getCursor, wp_ite, wp_fail, wp_setCursor, wp_getWalk]
  have hmark := s.cursor.column_le_skip (Promotion.ofMark s.cursor.peek).mark.length
  generalize s.cursor.skip (Promotion.ofMark s.cursor.peek).mark.length = c at hmark ⊢
  split_ifs with hname
  · exact hstays _ rfl
  have hname : c.atName = true := by simpa using hname
  have hlays (full : String) (run : Run) : s.Lays
      { s with cursor := c.name.2, parts := s.parts.push (.leaf .symbol full c.column), run } c.name.2.column :=
    ⟨rfl, _, Array.toList_push, .leaf (fun h => by cases h) (fun h => by cases h) hmark (column_lt_name hname)⟩
  have hgrows (full text : String) (run : Run) : s.Grows start
      { s with
        cursor := c.name.2
        parts := s.parts.push (.leaf .symbol full c.column)
        nodes := s.nodes.push (.mk .declaration text start (s.parts.push (.leaf .symbol full c.column)).toList)
        run } c.name.2.column :=
    (hlays full run).grows hparts (fun h => by cases h) (fun h => by cases h) (fun h => by cases h) hlt rfl
  split
  · exact hstays _ rfl
  simp only [wp_bind, wp_getRun, wp_position, wp_ite]
  split_ifs
  · split
    · exact hstays _ rfl
    · exact hgrows _ _ _
  · split
    · exact hstays _ rfl
    · exact hgrows _ _ _

instance {full : String} {e : Expr.Evaluated} {position : Position} {conditional : Bool} {start : Nat} :
    IsMoving (define full e position conditional start) := by
  unfold define
  refine isMoving_bind inferInstance fun run => ?_
  split <;> infer_instance

/-- The tree of an assignment, whose name stands before the expression. -/
theorem grows_assignment {c : Cursor} {e : Expr.Evaluated} {after : Expr.State} {text full : String}
    (hparts : s.parts = #[]) (hname : s.cursor.atName = true) (hc : s.cursor.name.2.column ≤ c.column)
    (hrow : Row c.column e.stop.column [e.node]) :
    s.Grows s.cursor.column
      { evaluated s after with
        cursor := e.stop
        parts := (s.parts.push (.leaf .symbol full s.cursor.column)).push e.node
        nodes := s.nodes.push (.mk .declaration text s.cursor.column
          ((s.parts.push (.leaf .symbol full s.cursor.column)).push e.node).toList) } e.stop.column := by
  have hlt := column_lt_name hname
  have hleaf : Row s.cursor.column s.cursor.name.2.column [.leaf .symbol full s.cursor.column] :=
    .leaf (fun h => by cases h) (fun h => by cases h) le_rfl hlt
  have hinside := hleaf.append (hrow.mono hc le_rfl)
  refine ⟨[.mk .declaration text s.cursor.column [.leaf .symbol full s.cursor.column, e.node]], ?_, ?_⟩
  · rw [Array.toList_push, Array.toList_push, Array.toList_push, hparts]
    rfl
  · exact .plain (fun h => by cases h) (fun h => by cases h) (fun h => by cases h) le_rfl
      (hlt.trans_le (hc.trans hrow.le)) hinside (.nil le_rfl)

theorem builds_assignment (hparts : s.parts = #[]) (hname : s.cursor.atName = true) :
    Builds s.cursor.column assignment env s := by
  unfold Builds assignment
  simp only [wp_bind, wp_getCursor, wp_setCursor, wp_peek, wp_ite, wp_advance, wp_getWalk, wp_position, wp_pushPart,
    wp_pushNode, wp_evaluate]
  have hread := Cursor.column_le_skipBlanks s.cursor.name.2
  have hread' := Cursor.column_le_skip s.cursor.name.2.skipBlanks 1
  split_ifs
  all_goals
    refine ⟨fun e after he => ?_, fun _ _ _ => ⟨_, LineState.grows_of_eq rfl le_rfl⟩⟩
    rw [← wp_bind]
    refine wp_grows_moving (grows_assignment hparts hname ?_ (Expr.row_of_evaluate he))
  · exact (hread.trans hread').trans (Cursor.column_le_skip _ 1)
  · exact hread.trans hread'

/-- A loop puts its variable before what it has read meanwhile. -/
theorem lays_forLoop (hparts : s.parts = #[]) :
    wp (forLoop start) env s (fun _ t => s.Lays t t.cursor.column) fun _ t => ∃ hi, s.Lays t hi := by
  have hstart := s.cursor.column_le_skipBlanks
  unfold forLoop
  rw [wp_bind, wp_skipBlanks, wp_bind, wp_column, wp_bind]
  refine wp_expectName_of_atName (fun hname => ?_) fun _ => ⟨_, LineState.lays_of_eq rfl rfl le_rfl⟩
  rw [Cursor.skipBlanks_skipBlanks] at hname
  simp only [Cursor.skipBlanks_skipBlanks]
  have hlt := column_lt_name hname
  -- what is read after the name stands after it
  have hafter {u : LineState} {hi : Nat}
      (hu : LineState.Lays { s with cursor := s.cursor.skipBlanks.name.2 } u hi) : s.Lays u hi := by
    obtain ⟨new, hnew, hrow⟩ := hu.parts
    exact ⟨hu.nodes, new, hnew, hrow.mono (hstart.trans hlt.le) le_rfl⟩
  have hE (stop : Stop) (u : LineState) (hi : Nat)
      (hu : LineState.Lays { s with cursor := s.cursor.skipBlanks.name.2 } u hi) : ∃ hi, s.Lays u hi := ⟨hi, hafter hu⟩
  refine wp_lays_bind inferInstance (LineState.lays_of_eq rfl rfl le_rfl) hE fun _ u hu => ?_
  refine wp_lays_bind inferInstance hu hE fun _ u hu => ?_
  refine wp_lays_bind inferInstance hu hE fun first u hu => ?_
  refine wp_lays_bind inferInstance hu hE fun _ u hu => ?_
  refine wp_lays_bind inferInstance hu hE fun limit u hu => ?_
  refine wp_lays_bind inferInstance hu hE fun _ u hu => ?_
  refine wp_lays_bind inferInstance hu hE fun step u hu => ?_
  refine wp_lays_bind inferInstance hu hE fun _ u hu => ?_
  obtain ⟨new, hnew, hrow⟩ := hu.parts
  have hlays : s.Lays
      { u with parts := #[.leaf .symbol s.cursor.skipBlanks.name.1 s.cursor.skipBlanks.column] ++ u.parts }
      u.cursor.column := by
    refine ⟨hu.nodes, .leaf .symbol s.cursor.skipBlanks.name.1 s.cursor.skipBlanks.column :: new, ?_, ?_⟩
    · rw [Array.toList_append, hnew, hparts]
      rfl
    · exact (Row.leaf (fun h => by cases h) (fun h => by cases h) hstart hlt).append hrow
  rw [wp_bind, wp_modify]
  exact wp_lays inferInstance hlays

/-! ### Instructions -/

instance {opcode : UInt8} {n : Nat} : IsMoving (emitImplied opcode n) := inferInstanceAs (IsMoving (write _ _))
instance {opcode : UInt8} {n : Int} {known : Bool} {start : Nat} : IsMoving (emitByte opcode n known start) :=
  inferInstanceAs (IsMoving (write _ _))
instance {opcode : UInt8} {n : Int} {known : Bool} {start : Nat} : IsMoving (emitWord opcode n known start) :=
  inferInstanceAs (IsMoving (write _ _))

instance {n : Int} {known : Bool} {column : Nat} : IsMoving (checkZeroPage n known column) := by
  unfold checkZeroPage
  infer_instance

instance {n : Int} {known : Bool} {column : Nat} : IsMoving (checkAddress n known column) := by
  unfold checkAddress
  infer_instance

instance {m : Mnemonic} {start : Nat} : IsMoving (implied m start) := by
  unfold implied
  refine isMoving_bind inferInstance fun _ => isMoving_bind inferInstance fun _ => ?_
  split <;> infer_instance

instance {m : Mnemonic} {start : Nat} : IsLaying (immediate m start) := by
  unfold immediate
  refine isLaying_bind inferInstance fun _ => isLaying_bind inferInstance fun _ => ?_
  split <;> infer_instance

instance {opcode : UInt8} {target : Int} {known : Bool} {start column : Nat} :
    IsMoving (branch opcode target known start column) := by
  unfold branch
  infer_instance

instance {m : Mnemonic} {n : Int} {known : Bool} {start bracket : Nat} :
    IsMoving (plainIndirect m n known start bracket) := by
  unfold plainIndirect
  refine isMoving_bind inferInstance fun _ => isMoving_bind inferInstance fun _ => ?_
  split <;> infer_instance

instance {m : Mnemonic} {modes : AddressModes} {n : Int} {known : Bool} {start begin : Nat} :
    IsMoving (emitAddress m modes n known start begin) := by
  unfold emitAddress
  refine isMoving_bind inferInstance fun _ => isMoving_bind inferInstance fun _ => ?_
  split <;> infer_instance

/-- The register of an index is put on its own column. -/
instance : IsLaying indexRegister where
  lays env s := by
    unfold indexRegister
    simp only [wp_bind, wp_advance, wp_skipBlanks, wp_getCursor, wp_ite, wp_fail]
    have hstart : s.cursor.column ≤ (s.cursor.skip 1).skipBlanks.column :=
      (s.cursor.column_le_skip 1).trans (Cursor.column_le_skipBlanks _)
    generalize (s.cursor.skip 1).skipBlanks = register at hstart ⊢
    have hstays (cursor : Cursor) : ∃ hi, s.Lays { s with cursor } hi := ⟨_, LineState.lays_of_eq rfl rfl le_rfl⟩
    split_ifs
    · exact hstays _
    · exact hstays _
    refine wp_expectEnd (fun _ => ?_) fun _ => hstays _
    have hlays {text : String} {x : Char} (hpeek : register.peek = some x) : s.Lays
        { s with
          cursor := (register.skip 1).skipBlanks
          parts := s.parts.push (.leaf .value text register.column) } (register.skip 1).skipBlanks.column :=
      ⟨rfl, _, Array.toList_push, .leaf (fun h => by cases h) (fun h => by cases h) hstart
        ((Cursor.column_lt_of_peek hpeek).trans_le (Cursor.column_le_skipBlanks _))⟩
    split
    · rename_i hpeek
      exact hlays hpeek
    · rename_i hpeek
      exact hlays hpeek
    · rename_i hpeek
      exact hlays hpeek
    · rename_i hpeek
      exact hlays hpeek
    · exact hstays _

instance : IsLaying addressModes := by
  unfold addressModes
  infer_instance

instance {m : Mnemonic} {start : Nat} : IsLaying (address m start) := by
  unfold address
  have hrest (begin : Nat) (e : Expr.Evaluated) : IsLaying (do
      let n ← ofFault begin e.value.integer
      match ← opcode? m .relative with
      | some opcode =>
        expectEnd
        branch opcode n e.known start begin
      | none =>
        checkAddress n e.known begin
        emitAddress m (← addressModes) n e.known start begin) := by
    refine isLaying_bind inferInstance fun _ => isLaying_bind inferInstance fun _ => ?_
    split <;> infer_instance
  infer_instance

/-- What stands inside an instruction: trees in a row, or an address and a register that
counts as standing at the bracket before it. -/
def IsOperand (lo hi : Nat) (parts : List Node) : Prop :=
  Row lo hi parts ∨ ∃ e bracket, parts = [e, .leaf .value "X" bracket] ∧ lo ≤ bracket ∧ Row (bracket + 1) hi [e]

theorem IsOperand.row {lo hi : Nat} {parts : List Node} {text : String} (h : IsOperand lo hi parts) (hlt : start < lo) :
    Row start hi [.mk .assembly text start parts] := by
  rcases h with hrow | ⟨e, bracket, rfl, hbracket, hrow⟩
  · exact .plain (fun h => by cases h) (fun h => by cases h) (fun h => by cases h) le_rfl (hlt.trans_le hrow.le)
      (hrow.mono hlt.le le_rfl) (.nil le_rfl)
  · exact .indexed le_rfl (by omega) hrow (.nil le_rfl)

/-- What an operand adds, when nothing was inside the instruction before. -/
structure LaysOperand (s t : LineState) (hi : Nat) : Prop where
  nodes : t.nodes = s.nodes
  parts : IsOperand s.cursor.column hi t.parts.toList

theorem laysOperand_of_lays {hi : Nat} (hparts : s.parts = #[]) (h : s.Lays t hi) : LaysOperand s t hi := by
  obtain ⟨new, hnew, hrow⟩ := h.parts
  rw [hparts, List.nil_append] at hnew
  exact ⟨h.nodes, Or.inl (hnew ▸ hrow)⟩

/-- Whether a step reads an operand. -/
def ReadsOperand (m : LineM α) (env : Setting) (s : LineState) : Prop :=
  wp m env s (fun _ t => LaysOperand s t t.cursor.column) fun _ t => ∃ hi, LaysOperand s t hi

theorem readsOperand_of_isLaying {m : LineM α} (hm : IsLaying m) (hparts : s.parts = #[]) : ReadsOperand m env s :=
  wp_mono (hm.lays env s) (fun _ _ h => laysOperand_of_lays hparts h) fun _ _ h =>
    h.imp fun _ h => laysOperand_of_lays hparts h

theorem readsOperand_accumulator {opcode : UInt8} (hparts : s.parts = #[]) (hrest : s.cursor.rest ≠ []) :
    ReadsOperand (accumulator opcode start) env s := by
  unfold ReadsOperand accumulator
  rw [wp_bind, wp_column, wp_bind, wp_advance, wp_bind, wp_pushPart]
  have hlays : s.Lays { s with
      cursor := s.cursor.skip 1, parts := s.parts.push (.leaf .value "A" s.cursor.column) } (s.cursor.skip 1).column :=
    ⟨rfl, _, Array.toList_push, .leaf (fun h => by cases h) (fun h => by cases h) le_rfl
      (Cursor.column_lt_skip Nat.one_pos hrest)⟩
  exact wp_mono (wp_lays inferInstance hlays) (fun _ _ h => laysOperand_of_lays hparts h) fun _ _ h =>
    h.imp fun _ h => laysOperand_of_lays hparts h

/-- The state in which the expression of an indirect operand has been read. -/
structure IsInside (s u : LineState) (e : Node) : Prop where
  nodes : u.nodes = s.nodes
  parts : u.parts = #[e]
  row : Row (s.cursor.column + 1) u.cursor.column [e]

theorem IsInside.laysOperand {u : LineState} {e : Node} (h : IsInside s u e) : ∃ hi, LaysOperand s u hi := by
  refine ⟨u.cursor.column, h.nodes, Or.inl ?_⟩
  rw [h.parts]
  exact h.row.mono (Nat.le_succ _) le_rfl

theorem IsInside.moved {u v : LineState} {e : Node} (h : IsInside s u e) (hnodes : v.nodes = u.nodes)
    (hparts : v.parts = u.parts) (hle : u.cursor.column ≤ v.cursor.column) : IsInside s v e :=
  ⟨hnodes.trans h.nodes, hparts.trans h.parts, h.row.mono le_rfl hle⟩

/-- A step that adds nothing, inside an indirect operand. -/
theorem wp_inside_bind {x : LineM β} {f : β → LineM α} {u : LineState} {e : Node} {Q : α → LineState → Prop}
    [hx : IsMoving x] (h : IsInside s u e)
    (hf : ∀ b v, IsInside s v e → wp (f b) env v Q fun _ t => ∃ hi, LaysOperand s t hi) :
    wp (x >>= f) env u Q fun _ t => ∃ hi, LaysOperand s t hi := by
  rw [wp_bind]
  refine wp_mono (hx.moves env u) (fun b v hv => hf b v (h.moved hv.1 hv.2.1 hv.2.2)) fun _ v hv => ?_
  refine ⟨u.cursor.column, hv.1.trans h.nodes, Or.inl ?_⟩
  rw [hv.2, h.parts]
  exact h.row.mono (Nat.le_succ _) le_rfl

theorem IsOperand.mono {lo hi hi' : Nat} {parts : List Node} (h : IsOperand lo hi parts) (hle : hi ≤ hi') :
    IsOperand lo hi' parts := by
  rcases h with hrow | ⟨e, bracket, hparts, hbracket, hrow⟩
  · exact Or.inl (hrow.mono le_rfl hle)
  · exact Or.inr ⟨e, bracket, hparts, hbracket, hrow.mono le_rfl hle⟩

/-- Steps that add nothing, after an operand has been read. -/
theorem wp_laysOperand_moving {m : LineM α} [hm : IsMoving m] {u : LineState} (h : LaysOperand s u u.cursor.column) :
    wp m env u (fun _ t => LaysOperand s t t.cursor.column) fun _ t => ∃ hi, LaysOperand s t hi := by
  refine wp_mono (hm.moves env u) (fun _ v hv => ⟨hv.1.trans h.nodes, ?_⟩) fun _ v hv =>
    ⟨u.cursor.column, hv.1.trans h.nodes, ?_⟩
  · rw [hv.2.1]
    exact h.parts.mono hv.2.2
  · rw [hv.2]
    exact h.parts

/-- The register counts as standing at the bracket, before the address. -/
theorem laysOperand_indexedIndirect {m : Mnemonic} {n : Int} {known : Bool} {u : LineState} {e : Node}
    (h : IsInside s u e) :
    wp (indexedIndirect m n known start s.cursor.column) env u (fun _ t => LaysOperand s t t.cursor.column)
      fun _ t => ∃ hi, LaysOperand s t hi := by
  unfold indexedIndirect
  refine wp_inside_bind h fun _ u h => wp_inside_bind h fun _ u h => wp_inside_bind h fun register u h => ?_
  rw [wp_ite]
  split_ifs
  · exact wp_inside_bind h fun _ u h => h.laysOperand
  refine wp_inside_bind h fun _ u h => wp_inside_bind h fun _ u h => wp_inside_bind h fun _ u h => ?_
  rw [wp_ite]
  split_ifs
  · exact h.laysOperand
  refine wp_inside_bind h fun _ u h => ?_
  rw [wp_bind, wp_pushPart]
  have hlays : LaysOperand s { u with parts := u.parts.push (.leaf .value "X" s.cursor.column) } u.cursor.column := by
    refine ⟨h.nodes, Or.inr ⟨e, s.cursor.column, ?_, le_rfl, h.row⟩⟩
    rw [h.parts]
    rfl
  refine @wp_laysOperand_moving _ _ _ _ ?_ _ hlays
  refine isMoving_bind inferInstance fun _ => isMoving_bind inferInstance fun _ => ?_
  refine isMoving_bind inferInstance fun _ => ?_
  split <;> infer_instance

/-- The register after the bracket is put on its own column. -/
theorem laysOperand_indirectIndexed {m : Mnemonic} {n : Int} {known : Bool} {u : LineState} {e : Node}
    (h : IsInside s u e) :
    wp (indirectIndexed m n known start s.cursor.column) env u
      (fun done t => t.nodes = s.nodes ∧ (done = true → LaysOperand s t t.cursor.column))
      fun _ t => ∃ hi, LaysOperand s t hi := by
  have hregister : u.cursor.column ≤ (u.cursor.skip 1).skipBlanks.column :=
    (u.cursor.column_le_skip 1).trans (Cursor.column_le_skipBlanks _)
  unfold indirectIndexed
  rw [wp_bind, wp_getCursor]
  dsimp only
  generalize (u.cursor.skip 1).skipBlanks = register at hregister ⊢
  simp only [wp_bind, opcode?, wp_getRun, wp_pure]
  split
  · exact ⟨h.nodes, fun h => by cases h⟩
  · rw [wp_ite]
    split_ifs with hpeek
    · exact ⟨h.nodes, fun h => by cases h⟩
    · obtain ⟨x, hx⟩ : ∃ x, register.peek = some x := by
        cases hnone : register.peek with
        | none =>
          rw [hnone] at hpeek
          exact absurd rfl hpeek
        | some x => exact ⟨x, rfl⟩
      rw [wp_bind, wp_setCursor, wp_bind, wp_pushPart]
      have hlays : LaysOperand s { u with
          cursor := register.skip 1, parts := u.parts.push (.leaf .value "Y" register.column) }
          (register.skip 1).column := by
        refine ⟨h.nodes, Or.inl ?_⟩
        have hleaf : Row u.cursor.column (register.skip 1).column [.leaf .value "Y" register.column] :=
          .leaf (fun h => by cases h) (fun h => by cases h) hregister (Cursor.column_lt_of_peek hx)
        rw [h.parts]
        exact (h.row.mono (Nat.le_succ _) le_rfl).append hleaf
      exact wp_mono (wp_laysOperand_moving hlays) (fun _ _ h => ⟨h.nodes, fun _ => h⟩) fun _ _ h => h

/-- An indirect operand, with nothing said of what is read if it turns out to be none. -/
theorem laysOperand_indirect {m : Mnemonic} (hparts : s.parts = #[]) (hrest : s.cursor.rest ≠ []) :
    wp (indirect m start) env s
      (fun done t => t.nodes = s.nodes ∧ (done = true → LaysOperand s t t.cursor.column))
      fun _ t => ∃ hi, LaysOperand s t hi := by
  have hstays (u : LineState) (hnodes : u.nodes = s.nodes) (hu : u.parts = s.parts) : ∃ hi, LaysOperand s u hi := by
    refine ⟨s.cursor.column, hnodes, Or.inl ?_⟩
    rw [hu, hparts]
    exact .nil le_rfl
  unfold indirect
  rw [wp_bind, wp_column, wp_bind, wp_advance, wp_bind, wp_evaluate]
  refine ⟨fun e after he => ?_, fun _ _ _ => hstays _ rfl rfl⟩
  rw [wp_bind, wp_ofFault]
  refine ⟨fun n hn => ?_, fun _ _ => hstays _ rfl rfl⟩
  rw [wp_bind, wp_pushPart]
  have hbracket : s.cursor.column + 1 ≤ (s.cursor.skip 1).column := Cursor.column_lt_skip Nat.one_pos hrest
  have hinside : IsInside s
      { evaluated { s with cursor := s.cursor.skip 1 } after with cursor := e.stop, parts := s.parts.push e.node }
      e.node := by
    refine ⟨rfl, ?_, (Expr.row_of_evaluate he).mono hbracket le_rfl⟩
    rw [hparts]
    rfl
  refine wp_inside_bind hinside fun _ u hu => ?_
  rw [wp_bind, wp_peek]
  split
  · rw [wp_bind]
    exact wp_mono (laysOperand_indexedIndirect hu) (fun _ _ h => ⟨h.nodes, fun _ => h⟩) fun _ _ h => h
  · refine wp_inside_bind hu fun _ u hu => wp_inside_bind hu fun ended u hu => ?_
    rw [wp_ite]
    split_ifs
    · have hplain : IsMoving (plainIndirect m n e.known start s.cursor.column) := inferInstance
      refine wp_mono (hplain.moves env u) (fun _ v hv => ?_) fun _ v hv => ?_
      · have hv' := hu.moved hv.1 hv.2.1 hv.2.2
        refine ⟨hv'.nodes, fun _ => ⟨hv'.nodes, Or.inl ?_⟩⟩
        rw [hv'.parts]
        exact hv'.row.mono (Nat.le_succ _) le_rfl
      · refine ⟨u.cursor.column, hv.1.trans hu.nodes, Or.inl ?_⟩
        rw [hv.2, hu.parts]
        exact hu.row.mono (Nat.le_succ _) le_rfl
    · rw [wp_bind, wp_peek, wp_ite]
      split_ifs
      · exact laysOperand_indirectIndexed hu
      · exact ⟨hu.nodes, fun h => by cases h⟩
  · exact hu.laysOperand

/-- What is no indirect operand after all is read again as an address. -/
theorem readsOperand_bracketed {m : Mnemonic} (hparts : s.parts = #[]) (hrest : s.cursor.rest ≠ []) :
    ReadsOperand (bracketed m start) env s := by
  unfold ReadsOperand bracketed
  rw [wp_bind, wp_get, wp_bind]
  refine wp_mono (laysOperand_indirect hparts hrest) (fun done u hu => ?_) fun _ _ h => h
  rw [wp_ite]
  split_ifs with hdone
  · rw [wp_bind, wp_modify]
    have hlays : s.Lays { u with
        cursor := s.cursor, parts := s.parts, run := { u.run with random := s.run.random } } s.cursor.column :=
      LineState.lays_of_eq hu.1 rfl le_rfl
    exact wp_mono (wp_lays inferInstance hlays) (fun _ _ h => laysOperand_of_lays hparts h) fun _ _ h =>
      h.imp fun _ h => laysOperand_of_lays hparts h
  · exact hu.2 (by simpa using hdone)

theorem readsOperand_operand {m : Mnemonic} (hparts : s.parts = #[]) : ReadsOperand (operand m start) env s := by
  have haddress {t : LineState} (ht : t.parts = #[]) : ReadsOperand (address m start) env t :=
    readsOperand_of_isLaying inferInstance ht
  have hblanks {t : LineState} {hi : Nat} (h : LaysOperand { s with cursor := s.cursor.skipBlanks } t hi) :
      LaysOperand s t hi := by
    refine ⟨h.nodes, h.parts.imp (fun hrow => hrow.mono s.cursor.column_le_skipBlanks le_rfl) ?_⟩
    rintro ⟨e, bracket, hparts, hbracket, hrow⟩
    exact ⟨e, bracket, hparts, s.cursor.column_le_skipBlanks.trans hbracket, hrow⟩
  unfold ReadsOperand operand
  rw [wp_bind, wp_atEnd]
  have hread {x : LineM Unit} (h : ReadsOperand x env { s with cursor := s.cursor.skipBlanks }) :
      wp x env { s with cursor := s.cursor.skipBlanks } (fun _ t => LaysOperand s t t.cursor.column)
        fun _ t => ∃ hi, LaysOperand s t hi :=
    wp_mono h (fun _ _ h => hblanks h) fun _ _ h => h.imp fun _ h => hblanks h
  rw [wp_ite]
  split_ifs
  · exact hread (readsOperand_of_isLaying inferInstance hparts)
  rw [wp_bind, wp_getCursor, wp_bind, wp_getRun]
  have hrest {x : Char} (hpeek : s.cursor.skipBlanks.peek = some x) : s.cursor.skipBlanks.rest ≠ [] :=
    Cursor.rest_ne_nil_of_peek hpeek
  dsimp only
  split
  · exact hread (readsOperand_of_isLaying inferInstance hparts)
  · rename_i hpeek
    rw [wp_ite]
    split_ifs
    · exact hread (readsOperand_bracketed hparts (hrest hpeek))
    · exact hread (haddress hparts)
  · rename_i hpeek _
    rw [wp_ite]
    split_ifs
    · exact hread (readsOperand_accumulator hparts (hrest hpeek))
    · exact hread (haddress hparts)
  · rename_i hpeek _
    rw [wp_ite]
    split_ifs
    · exact hread (readsOperand_accumulator hparts (hrest hpeek))
    · exact hread (haddress hparts)
  · exact hread (haddress hparts)

/-- An instruction adds its tree whether it can be written or not. -/
theorem builds_instruction {m : Mnemonic} (hparts : s.parts = #[]) (hlt : start < s.cursor.column) :
    Builds start (instruction m start) env s := by
  have hgrows {t : LineState} {hi : Nat} (h : LaysOperand s t hi) : s.Grows start
      { t with nodes := t.nodes.push (.mk .assembly m.name start t.parts.toList) } hi :=
    ⟨_, by rw [Array.toList_push, h.nodes], h.parts.row hlt⟩
  unfold Builds instruction
  rw [wp_andThen]
  exact wp_mono (readsOperand_operand hparts) (fun _ _ h => hgrows h) fun _ _ h => h.imp fun _ h => hgrows h

/-! ### Macro calls -/

instance isLaying_bindEach {first : Bool} {parameters : List String} : IsLaying (bindEach first parameters) := by
  induction parameters generalizing first with
  | nil => exact inferInstanceAs (IsLaying (pure ()))
  | cons parameter parameters ih =>
    unfold bindEach
    refine isLaying_bind inferInstance fun _ => isLaying_ite inferInstance ?_
    refine isLaying_when inferInstance fun _ => isLaying_bind inferInstance fun _ => ?_
    refine isLaying_bind inferInstance fun _ => isLaying_when inferInstance fun _ => ?_
    infer_instance

instance {parameters : List String} : IsLaying (bindArguments parameters) := by
  unfold bindArguments
  infer_instance

instance {m : Macro} {start : Nat} : IsMoving (expand m start) := by
  unfold expand
  infer_instance

theorem builds_macroCall {m : Macro} (hparts : s.parts = #[]) (hlt : start < s.cursor.column) :
    Builds start (macroCall m start) env s := by
  have hgrows {t : LineState} {hi : Nat} (h : s.Lays t hi) : s.Grows start
      { t with
        walk := t.walk.closeExpansion
        nodes := t.nodes.push (.mk .macroCall m.name start t.parts.toList) } hi :=
    h.grows hparts (fun h => by cases h) (fun h => by cases h) (fun h => by cases h) hlt rfl
  have hE (stop : Stop) (u : LineState) (hi : Nat) (hu : s.Lays u hi) : ∃ hi, s.Grows start u hi :=
    ⟨start, LineState.grows_of_eq hu.nodes le_rfl⟩
  have hs : s.Lays s s.cursor.column := LineState.lays_of_eq rfl rfl le_rfl
  unfold Builds macroCall
  refine wp_lays_bind inferInstance hs hE fun _ u hu => ?_
  have hcall {u : LineState} (hu : s.Lays u u.cursor.column) : wp (do
      let spot ← spot start
      changeWalk start fun w r => w.openScope r .expansion spot
      let call := do
        bindArguments m.parameters
        expand m start
      call.andThen fun s =>
        { s with
          walk := s.walk.closeExpansion
          nodes := s.nodes.push (.mk .macroCall m.name start s.parts.toList) }) env u
      (fun _ t => s.Grows start t t.cursor.column) fun _ t => ∃ hi, s.Grows start t hi := by
    refine wp_lays_bind inferInstance hu hE fun _ u hu => wp_lays_bind inferInstance hu hE fun _ u hu => ?_
    rw [wp_andThen]
    exact wp_mono (wp_lays inferInstance hu) (fun _ _ h => hgrows h) fun _ _ h => h.imp fun _ h => hgrows h
  rw [wp_ite]
  split_ifs
  · exact wp_lays_bind inferInstance hu hE fun _ u hu => wp_lays_bind inferInstance hu hE fun _ u hu => hcall hu
  · exact hcall hu

/-! ### Statements -/

theorem builds_operation (hparts : s.parts = #[]) : Builds s.cursor.column operation env s := by
  unfold Builds operation
  rw [wp_bind, wp_getCursor, wp_bind, wp_getRun]
  dsimp only
  split
  · rename_i m hfind
    have hlt : s.cursor.column < (s.cursor.skip 3).column := by
      refine Cursor.column_lt_skip (by decide) fun hrest => ?_
      rw [hrest] at hfind
      cases hfind
    rw [wp_bind, wp_advance]
    exact builds_instruction (s := { s with cursor := s.cursor.skip 3 }) hparts hlt
  · rw [wp_ite]
    split_ifs with hname
    · exact builds_fail
    have hlt : s.cursor.column < s.cursor.name.2.column := column_lt_name (by simpa using hname)
    rw [wp_bind, wp_setCursor]
    split
    · exact builds_macroCall (s := { s with cursor := s.cursor.name.2 }) hparts hlt
    · exact ⟨s.cursor.column, LineState.grows_of_eq rfl le_rfl⟩

/-- A directive adds a tree of its own if it is a command. -/
theorem builds_directive {spelling : String} {d : Directive} (hparts : s.parts = #[])
    (hfind : Directive.find? s.cursor.rest = some (spelling, d)) (hasm : d ≠ .asm) :
    Builds s.cursor.column (directive spelling d) env s := by
  have hlt : s.cursor.column < (s.cursor.skip spelling.length).column := by
    refine Cursor.column_lt_skip (length_pos_of_find? hfind) fun hrest => ?_
    have hnone : Directive.find? [] = none := by decide
    rw [hrest, hnone] at hfind
    cases hfind
  -- the tree of a command is made of what was laid out
  have hcommand (hlays : wp (perform d s.cursor.column) env { s with cursor := s.cursor.skip spelling.length }
      (fun _ t => LineState.Lays { s with cursor := s.cursor.skip spelling.length } t t.cursor.column)
      fun _ t => ∃ hi, LineState.Lays { s with cursor := s.cursor.skip spelling.length } t hi) :
      Builds s.cursor.column (directive spelling d) env s := by
    unfold Builds directive
    rw [wp_bind, wp_column, wp_bind, wp_advance, wp_bind]
    refine wp_mono hlays (fun _ t ht => ?_) fun _ t ht => ?_
    · rw [wp_ite]
      split_ifs
      · rw [wp_pushNode]
        exact ht.grows hparts (fun h => by cases h) (fun h => by cases h) (fun h => by cases h) hlt rfl
      · have hle : (s.cursor.skip spelling.length).column ≤ t.cursor.column := by
          obtain ⟨new, -, hrow⟩ := ht.parts
          exact hrow.le
        exact LineState.grows_of_eq ht.nodes (hlt.le.trans hle)
    · obtain ⟨hi, ht⟩ := ht
      exact ⟨s.cursor.column, LineState.grows_of_eq ht.nodes le_rfl⟩
  by_cases hlabel : d = .label
  · subst hlabel
    unfold Builds directive
    rw [wp_bind, wp_column, wp_bind, wp_advance, wp_bind]
    have hlabel : Builds s.cursor.column (label s.cursor.column) env
        { s with cursor := s.cursor.skip spelling.length } := builds_label hparts hlt
    exact wp_mono hlabel (fun _ _ h => h) fun _ _ h => h
  by_cases hloop : d = .forLoop
  · subst hloop
    exact hcommand (lays_forLoop hparts)
  · exact hcommand ((isLaying_perform hlabel hloop hasm).lays env _)

/-- What comes of a statement that is a directive, with the tree that it leaves. -/
theorem wp_statement_of_find {spelling : String} {d : Directive} {Q : Bool → LineState → Prop}
    {E : Stop → LineState → Prop} (h : directive? s = some d)
    (hfind : Directive.find? s.cursor.rest = some (spelling, d))
    (hwp : wp (directive spelling d) env { s with parts := #[] } (fun _ t => Q (!t.walk.rewound) t) E) :
    wp statement env s Q E := by
  unfold directive? at h
  split_ifs at h with hassignment
  simp only [hfind] at h
  split_ifs at h with hexecuted
  unfold statement
  simp only [wp_bind, wp_modify, wp_getCursor, wp_getWalk]
  rw [if_neg hassignment]
  simp only [hfind]
  rw [if_pos hexecuted, wp_bind]
  exact hwp

/-- A statement adds trees on its own columns, unless it is an `ASM`. -/
theorem builds_statement (hasm : directive? s ≠ some .asm) : Builds s.cursor.column statement env s := by
  cases hd : directive? s with
  | none =>
    refine wp_statement_of_none hd ?_ (fun _ hassignment => ?_) fun _ _ => ?_
    · exact LineState.grows_of_eq rfl (s.cursor.column_le_skip _)
    · exact builds_assignment (s := { s with parts := #[] }) rfl (Bool.and_eq_true_iff.mp hassignment).1
    · exact builds_operation (s := { s with parts := #[] }) rfl
  | some d =>
    obtain ⟨spelling, hfind⟩ := find?_of_directive? hd
    have hne : d ≠ .asm := fun h => hasm (by rw [hd, h])
    exact wp_statement_of_find hd hfind (builds_directive (s := { s with parts := #[] }) rfl hfind hne)

end LineM

/-! ### Lines -/

/-- Whether a line gets to no `ASM`. -/
def LineState.IsPlain (library : Library) (runBuffer : BufferRunner) (includes index n : Nat) (s : LineState) : Prop :=
  ∀ t, s.GetsTo library runBuffer includes index n n t →
    LineM.directive? { t with cursor := t.cursor.skipBlanks } ≠ some .asm

namespace LineM

section
variable {library : Library} {runBuffer : BufferRunner} {includes index n : Nat} {s t u : LineState}

/-- The statements of a plain line add trees one after the other. -/
theorem grows_statementsFrom (hplain : s.IsPlain library runBuffer includes index n)
    (hgets : s.GetsTo library runBuffer includes index n n t) (h : s.Grows s.cursor.column t t.cursor.column)
    (steps : Nat) :
    wp (statementsFrom steps) (lineSetting library runBuffer includes index n) t
      (fun _ u => ∃ hi, s.Grows s.cursor.column u hi) fun _ u => ∃ hi, s.Grows s.cursor.column u hi := by
  induction steps generalizing t with
  | zero => exact ⟨_, h⟩
  | succ steps ih =>
    unfold statementsFrom
    rw [wp_bind, wp_skipBlanks, wp_bind, wp_getCursor, wp_ite]
    have hblanks : s.Grows s.cursor.column { t with cursor := t.cursor.skipBlanks } t.cursor.skipBlanks.column := by
      obtain ⟨new, hnew, hrow⟩ := h
      exact ⟨new, hnew, hrow.mono le_rfl t.cursor.column_le_skipBlanks⟩
    split_ifs with hrest
    · have hrest : t.cursor.skipBlanks.rest ≠ [] := by simpa using hrest
      have hbuilds : Builds t.cursor.skipBlanks.column statement (lineSetting library runBuffer includes index n)
          { t with cursor := t.cursor.skipBlanks } := builds_statement (hplain t hgets)
      rw [wp_bind]
      rcases hrun : statement (lineSetting library runBuffer includes index n)
        { t with cursor := t.cursor.skipBlanks } with ⟨_ | _, u⟩ | ⟨stop, u⟩
      · rw [wp, hrun]
        exact ⟨_, hblanks.trans (of_wp_ok hbuilds hrun)⟩
      · rw [wp, hrun]
        exact ih (.executes hgets hrest hrun) (hblanks.trans (of_wp_ok hbuilds hrun))
      · rw [wp, hrun]
        obtain ⟨hi, hu⟩ := of_wp_error hbuilds hrun
        exact ⟨hi, hblanks.trans hu⟩
    · exact ⟨_, hblanks⟩

/-- The trees of a plain line stand in a row, whether it stops or not. -/
theorem row_statements {c : Cursor} {w : Walk} {r : Run}
    (hplain : LineState.IsPlain library runBuffer includes index n ⟨c, #[], #[], w, r⟩) :
    wp statements (lineSetting library runBuffer includes index n) ⟨c, #[], #[], w, r⟩
      (fun _ t => ∃ hi, Row c.column hi t.nodes.toList) fun _ t => ∃ hi, Row c.column hi t.nodes.toList := by
  have hstart := grows_statementsFrom hplain .refl (LineState.grows_of_eq rfl le_rfl) (c.rest.length + 1)
  have hrow {t : LineState} (h : ∃ hi, LineState.Grows c.column ⟨c, #[], #[], w, r⟩ t hi) :
      ∃ hi, Row c.column hi t.nodes.toList := by
    obtain ⟨hi, new, hnew, hrow⟩ := h
    exact ⟨hi, by rwa [hnew]⟩
  unfold statements
  rw [wp_bind, wp_getCursor]
  exact wp_mono hstart (fun _ _ h => hrow h) fun _ _ h => hrow h

end
end LineM
end Asm6502
