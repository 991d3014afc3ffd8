/-
# Where steps leave the cursor

Most steps of a statement leave the cursor where it is, and those that read go on
along the line. A statement that succeeds has read up to its end, with the blanks
before it: its end is the last thing that it looks for. For statements with any
number of items this needs that an item takes at least one character, so that the
count of steps does not run out before the end of the line.

Key definitions: `LineM.Moves`, `LineM.KeepsPlace`, `Cursor.IsEnd`, `LineM.IsClosing`,
`LineM.readLoop`.
Key theorems: `LineM.moves_eachSeparated`, `LineM.moves_macroParameters`,
`LineM.isClosing_keeps`, `LineM.isClosing_perform`.
-/
import Asm6502.Proofs.Expr.Span
import Asm6502.Proofs.Label.Invariant
import Asm6502.Proofs.Statement.Execution
import Asm6502.Line

namespace Asm6502

/-- A place where a statement ends, behind the blanks before its end. -/
def Cursor.IsEnd (c : Cursor) : Prop := c.atStatementEnd = true ∧ c.skipBlanks = c

namespace Cursor
variable {c : Cursor}

theorem isEnd_skipBlanks (h : c.skipBlanks.atStatementEnd = true) : c.skipBlanks.IsEnd :=
  ⟨h, c.skipBlanks_skipBlanks⟩

theorem isEnd_skipStatement : c.skipStatement.IsEnd := ⟨c.atStatementEnd_skipStatement, c.skipBlanks_skipStatement⟩

theorem isEnd_skipLine : c.skipLine.IsEnd := by
  have hrest : c.skipLine.rest = [] := by rw [skipLine, skip, List.drop_length]
  have hblanks : c.skipLine.skipBlanks = c.skipLine := by
    unfold skipBlanks
    rw [hrest]
    rfl
  exact ⟨by rw [atStatementEnd, hblanks, hrest], hblanks⟩

end Cursor

namespace LineM

-- the statements are long, and so are the searches for their instances
set_option synthInstance.maxSize 1024

variable {α β : Type} {env : Setting} {s t : LineState}

/-- Whether a step moves the cursor from where `P` holds to where `Q` does, if it
does not stop. -/
def Moves (P : Cursor → Prop) (m : LineM α) (Q : α → Cursor → Prop) : Prop :=
  ∀ env s, P s.cursor → wp m env s (fun a t => Q a t.cursor) fun _ _ => True

/-- Whether a step that succeeds ends where it begins. -/
class KeepsPlace (m : LineM α) : Prop where
  cursor_eq : ∀ env s, wp m env s (fun _ t => t.cursor = s.cursor) fun _ _ => True

/-- Whether a step that succeeds ends where a statement ends. -/
class IsClosing (m : LineM α) : Prop where
  isEnd : ∀ env s, wp m env s (fun _ t => t.cursor.IsEnd) fun _ _ => True

/-! ### Steps that keep their place -/

theorem keepsPlace_bind {x : LineM β} {f : β → LineM α} (hx : KeepsPlace x) (hf : ∀ b, KeepsPlace (f b)) :
    KeepsPlace (x >>= f) where
  cursor_eq env s := by
    rw [wp_bind]
    refine wp_mono (hx.cursor_eq env s) (fun b t ht => ?_) fun _ _ _ => trivial
    rw [← ht]
    exact (hf b).cursor_eq env t

theorem keepsPlace_when {p : Prop} [Decidable p] {x : LineM Unit} {f : Unit → LineM α} (hx : KeepsPlace x)
    (hf : ∀ b, KeepsPlace (f b)) : KeepsPlace (if p then x >>= f else f ()) := by
  split
  · exact keepsPlace_bind hx hf
  · exact hf ()

instance {x : LineM β} {f : β → LineM α} [hx : KeepsPlace x] [hf : ∀ b, KeepsPlace (f b)] : KeepsPlace (x >>= f) :=
  keepsPlace_bind hx hf

instance {p : Prop} [Decidable p] {x y : LineM α} [hx : KeepsPlace x] [hy : KeepsPlace y] :
    KeepsPlace (if p then x else y) := by
  split
  · exact hx
  · exact hy

theorem keepsPlace_modify {f : LineState → LineState} (hf : ∀ s, (f s).cursor = s.cursor) :
    KeepsPlace (modify f : LineM Unit) := ⟨fun _ s => hf s⟩

instance {a : α} : KeepsPlace (pure a : LineM α) := ⟨fun _ _ => rfl⟩
instance {fault : Fault} {n : Nat} : KeepsPlace (fail fault n : LineM α) := ⟨fun _ _ => trivial⟩
instance : KeepsPlace (get : LineM LineState) := ⟨fun _ _ => rfl⟩
instance : KeepsPlace (read : LineM Setting) := ⟨fun _ _ => rfl⟩
instance : KeepsPlace getCursor := ⟨fun _ _ => rfl⟩
instance : KeepsPlace getWalk := ⟨fun _ _ => rfl⟩
instance : KeepsPlace getRun := ⟨fun _ _ => rfl⟩
instance : KeepsPlace peek := ⟨fun _ _ => rfl⟩
instance : KeepsPlace column := ⟨fun _ _ => rfl⟩
instance : KeepsPlace isSecondPass := ⟨fun _ _ => rfl⟩
instance {n : Nat} : KeepsPlace (position n) := ⟨fun _ _ => rfl⟩
instance {n : Nat} : KeepsPlace (spot n) := ⟨fun _ _ => rfl⟩
instance {m : Mnemonic} {mode : Mode} : KeepsPlace (opcode? m mode) := ⟨fun _ _ => rfl⟩
instance {walk : Walk} : KeepsPlace (setWalk walk) := ⟨fun _ _ => rfl⟩
instance {f : Run → Run} : KeepsPlace (modifyRun f) := ⟨fun _ _ => rfl⟩
instance {f : ObjectCode → ObjectCode} : KeepsPlace (modifyCode f) := ⟨fun _ _ => rfl⟩
instance {f : SymbolTable → SymbolTable} : KeepsPlace (modifySymbols f) := ⟨fun _ _ => rfl⟩
instance {node : Node} : KeepsPlace (pushPart node) := ⟨fun _ _ => rfl⟩
instance {kind : NodeKind} {text : String} {n : Nat} : KeepsPlace (pushNode kind text n) := ⟨fun _ _ => rfl⟩

instance {n : Nat} {x : Except Fault α} : KeepsPlace (ofFault n x) := by
  cases x with
  | ok a => exact inferInstanceAs (KeepsPlace (pure a))
  | error fault => exact inferInstanceAs (KeepsPlace (fail fault n))

instance {bytes : List (UInt8 × Bool)} {n : Nat} : KeepsPlace (write bytes n) where
  cursor_eq env s := by
    rw [wp_write]
    dsimp only
    split <;> trivial

instance keepsPlace_writeEach {known : Bool} {n : Nat} {bytes : List UInt8} : KeepsPlace (writeEach known n bytes) := by
  induction bytes with
  | nil => exact inferInstanceAs (KeepsPlace (pure ()))
  | cons byte bytes ih =>
    unfold writeEach
    infer_instance

instance {n : Nat} {f : Walk → Run → Except Fault (Walk × Run)} : KeepsPlace (changeWalk n f) where
  cursor_eq env s := by
    unfold changeWalk
    simp only [wp_bind, wp_getWalk, wp_getRun, wp_ofFault, wp_modify]
    exact ⟨fun _ _ => trivial, fun _ _ => trivial⟩

instance {n : Nat} {f : List Conditional → Except Fault (List Conditional)} : KeepsPlace (changeConditionals n f) := by
  unfold changeConditionals
  infer_instance

instance {n : Nat} {f : ObjectCode → Except MemoryFault ObjectCode} : KeepsPlace (changeCode n f) where
  cursor_eq env s := by
    unfold changeCode
    rw [wp_bind, wp_getRun]
    split <;> trivial

instance {rule : Rule α} {a : Argument α} : KeepsPlace (a.take rule) := by
  unfold Argument.take
  split <;> split <;> infer_instance

instance {rule : Rule α} {a : Argument α} : KeepsPlace (a.take? rule) := by
  unfold Argument.take?
  split
  · infer_instance
  · rw [← bind_pure_comp]
    infer_instance

instance {allowance : Allowance} {buffer : Buffer} {frames : List Frame} :
    KeepsPlace (runBuffer allowance buffer frames) where
  cursor_eq env s := by
    unfold runBuffer wp
    dsimp only
    cases env.runBuffer allowance buffer frames s.run <;> trivial

instance keepsPlace_writeText {n : Nat} {cs : List Char} : KeepsPlace (writeText n cs) := by
  induction cs with
  | nil => exact inferInstanceAs (KeepsPlace (pure ()))
  | cons c cs ih =>
    unfold writeText
    infer_instance

instance {width : Nat} {e : Expr.Evaluated} {n : Nat} : KeepsPlace (writeValue width e n) := by
  unfold writeValue
  split <;> infer_instance

instance {name : String} {n : Nat} {kind : LinkKind} : KeepsPlace (resolveFile name n kind) := by
  unfold resolveFile
  refine keepsPlace_bind inferInstance fun _ => keepsPlace_bind inferInstance fun _ => ?_
  refine keepsPlace_bind inferInstance fun _ => keepsPlace_bind inferInstance fun _ => ?_
  split <;> infer_instance

instance {path : Path} {n : Nat} : KeepsPlace (readFile path n) := by
  unfold readFile
  refine keepsPlace_bind inferInstance fun _ => keepsPlace_bind inferInstance fun _ => ?_
  split <;> infer_instance

instance {m : LineM α} [hm : KeepsPlace m] : KeepsPlace (included m) := by
  have hinside : KeepsPlace (m.andThen fun s => { s with run.depth.includes := s.run.depth.includes - 1 }) := by
    refine ⟨fun env s => ?_⟩
    rw [wp_andThen]
    exact hm.cursor_eq env s
  unfold included
  infer_instance

instance {full : String} {e : Expr.Evaluated} {position : Position} {conditional : Bool} {start : Nat} :
    KeepsPlace (define full e position conditional start) := by
  unfold define
  refine keepsPlace_bind inferInstance fun _ => ?_
  split <;> infer_instance

instance {start : Nat} : KeepsPlace (openBrace start) := by
  unfold openBrace
  infer_instance

instance {start : Nat} : KeepsPlace (closeBrace start) := by
  unfold closeBrace
  infer_instance

instance {n : Int} {known : Bool} {column : Nat} : KeepsPlace (checkZeroPage n known column) := by
  unfold checkZeroPage
  infer_instance

instance {n : Int} {known : Bool} {column : Nat} : KeepsPlace (checkAddress n known column) := by
  unfold checkAddress
  infer_instance

instance {opcode : UInt8} : KeepsPlace (emitImplied opcode start) := by
  unfold emitImplied
  infer_instance

instance {opcode : UInt8} {n : Int} {known : Bool} : KeepsPlace (emitByte opcode n known start) := by
  unfold emitByte
  infer_instance

instance {opcode : UInt8} {n : Int} {known : Bool} : KeepsPlace (emitWord opcode n known start) := by
  unfold emitWord
  infer_instance

instance {m : Mnemonic} {start : Nat} : KeepsPlace (implied m start) := by
  unfold implied
  refine keepsPlace_bind inferInstance fun _ => keepsPlace_bind inferInstance fun _ => ?_
  split <;> infer_instance

instance {opcode : UInt8} {target : Int} {known : Bool} {column : Nat} :
    KeepsPlace (branch opcode target known start column) := by
  unfold branch
  infer_instance

instance {modes : AddressModes} {n : Int} {known : Bool} {begin : Nat} :
    KeepsPlace (emitAddress m modes n known start begin) := by
  unfold emitAddress
  refine keepsPlace_bind inferInstance fun _ => keepsPlace_bind inferInstance fun _ => ?_
  split <;> infer_instance

instance {n : Int} {known : Bool} {bracket : Nat} : KeepsPlace (plainIndirect m n known start bracket) := by
  unfold plainIndirect
  refine keepsPlace_bind inferInstance fun _ => keepsPlace_bind inferInstance fun _ => ?_
  split <;> infer_instance

instance {m : Macro} {start : Nat} : KeepsPlace (expand m start) := by
  unfold expand
  infer_instance

instance {what : Note} : KeepsPlace (note what) := ⟨fun _ _ => rfl⟩

/-! ### Moving along the line -/

section
variable {P R : Cursor → Prop} {Q : α → Cursor → Prop} {n : Nat}

/-- A place with at most `n` characters after it. -/
def Within (n : Nat) (c : Cursor) : Prop := c.rest.length ≤ n

theorem moves_bind {x : LineM β} {f : β → LineM α} {R : β → Cursor → Prop} (hx : Moves P x R)
    (hf : ∀ b, Moves (R b) (f b) Q) : Moves P (x >>= f) Q := by
  intro env s hs
  rw [wp_bind]
  exact wp_mono (hx env s hs) (fun b t ht => hf b env t ht) fun _ _ _ => trivial

theorem moves_any {x : LineM β} {f : β → LineM α} (hf : ∀ b, Moves (fun _ => True) (f b) Q) : Moves P (x >>= f) Q :=
  fun _ _ _ => wp_any fun b t => hf b _ t trivial

theorem moves_keeps {m : LineM α} [h : KeepsPlace m] : Moves P m fun _ => P :=
  fun env s hs => wp_mono (h.cursor_eq env s) (fun _ _ ht => ht ▸ hs) fun _ _ _ => trivial

theorem moves_pure {a : α} (h : ∀ c, P c → Q a c) : Moves P (pure a) Q := fun _ _ hs => h _ hs

theorem moves_fail {fault : Fault} {column : Nat} : Moves P (fail fault column) Q := fun _ _ _ => trivial

theorem moves_ite {c : Prop} [Decidable c] {x y : LineM α} (hx : c → Moves P x Q) (hy : ¬ c → Moves P y Q) :
    Moves P (if c then x else y) Q := by
  split_ifs with h
  · exact hx h
  · exact hy h

theorem moves_when {c : Prop} [Decidable c] {x : LineM Unit} {f : Unit → LineM α} (hx : Moves P x fun _ => R)
    (hskip : ∀ c, P c → R c) (hf : Moves R (f ()) Q) : Moves P (if c then x >>= f else f ()) Q :=
  moves_ite (fun _ => moves_bind hx fun _ => hf) fun _ env s hs => hf env s (hskip _ hs)

theorem Moves.imp {P' : Cursor → Prop} {Q' : α → Cursor → Prop} {m : LineM α} (h : Moves P' m Q')
    (hP : ∀ c, P c → P' c) (hQ : ∀ a c, Q' a c → Q a c) : Moves P m Q :=
  fun env s hs => wp_mono (h env s (hP _ hs)) (fun a _ ht => hQ a _ ht) fun _ _ _ => trivial

theorem moves_advance {k : Nat} : Moves (Within n) (advance k) fun _ => Within n :=
  fun _ s hs => Nat.le_trans (s.cursor.length_skip_le k) hs

theorem moves_skipBlanks : Moves (Within n) skipBlanks fun _ => Within n :=
  fun _ s hs => Nat.le_trans s.cursor.length_skipBlanks_le hs

theorem moves_atEnd : Moves (Within n) atEnd fun ended c => Within n c ∧ (ended = true → c.IsEnd) :=
  fun _ s hs => ⟨Nat.le_trans s.cursor.length_skipBlanks_le hs, Cursor.isEnd_skipBlanks⟩

theorem moves_expectComma : Moves (Within n) expectComma fun _ => Within n := by
  unfold expectComma
  refine moves_bind moves_skipBlanks fun _ => moves_bind moves_keeps fun _ => ?_
  exact moves_ite (fun _ => moves_advance) fun _ => moves_bind moves_keeps fun _ => moves_fail

/-- An evaluation takes at least one character. -/
theorem moves_evaluate : Moves (Within n) evaluate fun _ c => c.rest.length < n := by
  intro env s hs
  rw [wp_evaluate]
  refine ⟨fun e after he => ?_, fun _ _ _ => trivial⟩
  exact Nat.lt_of_lt_of_le (Expr.evaluate_reaches he).2 hs

theorem moves_expectName : Moves (Within n) expectName fun name c => c.rest.length < n ∧ IsPlain name := by
  intro env s hs
  unfold expectName
  simp only [wp_bind, wp_skipBlanks, wp_getCursor, wp_ite, wp_fail, wp_setCursor, wp_pure]
  have hblanks := s.cursor.reaches_skipBlanks
  generalize s.cursor.skipBlanks = c at hblanks ⊢
  split_ifs with hname
  have hlt : c.name.2.rest.length < c.rest.length := c.length_name_lt (by simpa using hname)
  exact ⟨Nat.lt_of_lt_of_le hlt (Nat.le_trans hblanks.length_le hs), c.isPlain_name⟩

/-! ### Items -/

/-- The steps do not run out: with no character left, no item can be read. -/
theorem moves_eachSeparated {item : LineM Unit} (hitem : ∀ n, Moves (Within n) item fun _ c => c.rest.length < n) :
    ∀ steps, Moves (Within steps) (eachSeparated item steps) fun _ => Cursor.IsEnd
  | 0 => (hitem 0).imp (fun _ h => h) fun _ _ h => absurd h (Nat.not_lt_zero _)
  | steps + 1 => by
    unfold eachSeparated
    refine moves_bind ((hitem (steps + 1)).imp (fun _ h => h) fun _ _ h => Nat.le_of_lt_succ h) fun _ => ?_
    refine moves_bind moves_atEnd fun ended => moves_ite (fun _ => ?_) fun hended => ?_
    · refine moves_bind (moves_expectComma.imp (fun _ h => h.1) fun _ _ h => h) fun _ => ?_
      exact moves_eachSeparated hitem steps
    · exact moves_pure fun _ h => h.2 (by simpa using hended)

/-- One value of an `EQUB`, `EQUW` or `EQUD`. -/
def dataItem (width : Nat) : LineM Unit := do
  skipBlanks
  let start ← column
  let e ← evaluate
  pushPart e.node
  writeValue width e start

/-- One value of an `ASSERT`. -/
def assertItem : LineM Unit := do
  skipBlanks
  let start ← column
  let e ← evaluate
  pushPart e.node
  let n ← ofFault start e.value.number
  if e.known && (← isSecondPass) && n == 0 then fail .assertionFailed start

theorem moves_dataItem {width : Nat} : Moves (Within n) (dataItem width) fun _ c => c.rest.length < n :=
  moves_bind moves_skipBlanks fun _ => moves_bind moves_keeps fun _ => moves_bind moves_evaluate fun _ => moves_keeps

theorem moves_assertItem : Moves (Within n) assertItem fun _ c => c.rest.length < n :=
  moves_bind moves_skipBlanks fun _ => moves_bind moves_keeps fun _ => moves_bind moves_evaluate fun _ => moves_keeps

theorem moves_printItems : ∀ (before : List String) (steps : Nat),
    Moves (fun c => c.rest.length < steps) (printItems before steps) fun _ => Cursor.IsEnd
  | _, 0 => fun _ _ hs => absurd hs (Nat.not_lt_zero _)
  | before, steps + 1 => by
    have hitem : Moves (Within steps) (do
        let hex := (← peek) == some '~'
        if hex then advance 1
        let e ← evaluate
        pushPart e.node
        printItems (before ++ [printedText hex e.value]) steps) fun _ => Cursor.IsEnd :=
      moves_bind moves_keeps fun _ => moves_when moves_advance (fun _ h => h) <|
        moves_bind moves_evaluate fun _ => moves_bind moves_keeps fun _ => moves_printItems _ steps
    unfold printItems
    refine moves_bind (moves_atEnd.imp (fun _ h => Nat.le_of_lt_succ h) fun _ _ h => h) fun ended => ?_
    refine moves_ite (fun hended => moves_pure fun _ h => h.2 hended) fun _ => moves_bind moves_keeps fun _ => ?_
    refine moves_ite (fun _ => ?_) fun _ => hitem.imp (fun _ h => h.1) fun _ _ h => h
    refine moves_bind (moves_expectComma.imp (fun _ h => h.1) fun _ _ h => h) fun _ => ?_
    exact moves_bind moves_skipBlanks fun _ => hitem

theorem moves_macroParameters : ∀ (before : List String) (steps : Nat), (∀ name ∈ before, IsPlain name) →
    Moves (fun c => c.rest.length < steps) (macroParameters before steps)
      fun names c => c.IsEnd ∧ ∀ name ∈ names, IsPlain name
  | _, 0, _ => fun _ _ hs => absurd hs (Nat.not_lt_zero _)
  | before, steps + 1, hbefore => by
    have hname : Moves (Within steps) (do
        skipBlanks
        let start ← column
        let name ← expectName
        pushPart (.leaf .symbol name start)
        macroParameters (before ++ [name]) steps) fun names c => c.IsEnd ∧ ∀ name ∈ names, IsPlain name := by
      refine moves_bind moves_skipBlanks fun _ => moves_bind moves_keeps fun _ => ?_
      refine moves_bind moves_expectName fun name => moves_bind moves_keeps fun _ env s hs => ?_
      refine moves_macroParameters (before ++ [name]) steps (fun other hother => ?_) env s hs.1
      rcases List.mem_append.mp hother with hother | hother
      · exact hbefore other hother
      · exact List.mem_singleton.mp hother ▸ hs.2
    unfold macroParameters
    refine moves_bind (moves_atEnd.imp (fun _ h => Nat.le_of_lt_succ h) fun _ _ h => h) fun ended => ?_
    refine moves_ite (fun hended => moves_pure fun _ h => ⟨h.2 hended, hbefore⟩) fun _ => ?_
    refine moves_bind moves_keeps fun _ => ?_
    exact moves_when (moves_expectComma.imp (fun _ h => h.1) fun _ _ h => h) (fun _ h => h.1) hname

end

/-! ### Statements that go on to their end -/

theorem IsClosing.moves {m : LineM α} {P : Cursor → Prop} (h : IsClosing m) : Moves P m fun _ => Cursor.IsEnd :=
  fun env s _ => h.isEnd env s

/-- A loop that is given more steps than there are characters left. -/
theorem isClosing_of_moves {loop : Nat → LineM α} {n : Nat} {Q : α → Cursor → Prop} (hQ : ∀ a c, Q a c → c.IsEnd)
    (h : ∀ steps, Moves (fun c => c.rest.length + n = steps) (loop steps) Q) :
    IsClosing (do loop ((← getCursor).rest.length + n)) :=
  ⟨fun env s => wp_mono (h _ env s rfl) (fun a _ ht => hQ a _ ht) fun _ _ _ => trivial⟩

/-- What keeps its place may follow. -/
theorem isClosing_keeps {x : LineM β} {f : β → LineM α} (hx : IsClosing x) (hf : ∀ b, KeepsPlace (f b)) :
    IsClosing (x >>= f) where
  isEnd env s := by
    rw [wp_bind]
    refine wp_mono (hx.isEnd env s) (fun b t ht => ?_) fun _ _ _ => trivial
    exact wp_mono ((hf b).cursor_eq env t) (fun _ u hu => by rw [hu]; exact ht) fun _ _ _ => trivial

/-- Anything may come before. -/
theorem isClosing_bind {x : LineM β} {f : β → LineM α} (hf : ∀ b, IsClosing (f b)) : IsClosing (x >>= f) :=
  ⟨fun env _ => wp_any fun b t => (hf b).isEnd env t⟩

theorem isClosing_when {p : Prop} [Decidable p] {x : LineM Unit} {f : Unit → LineM α} (hf : ∀ b, IsClosing (f b)) :
    IsClosing (if p then x >>= f else f ()) := by
  split
  · exact isClosing_bind hf
  · exact hf ()

theorem isClosing_andThen {m : LineM α} {last : LineState → LineState} (hm : IsClosing m)
    (hlast : ∀ s, (last s).cursor = s.cursor) : IsClosing (m.andThen last) where
  isEnd env s := by
    rw [wp_andThen]
    exact wp_mono (hm.isEnd env s) (fun _ t ht => (hlast t).symm ▸ ht) fun _ _ _ => trivial

/-- A statement may go on if its end is not found. -/
theorem isClosing_atEnd {f : Bool → LineM α} (hend : KeepsPlace (f true)) (hf : IsClosing (f false)) :
    IsClosing (atEnd >>= f) where
  isEnd env s := by
    rw [wp_bind, wp_atEnd]
    cases hended : s.cursor.skipBlanks.atStatementEnd with
    | true =>
      exact wp_mono (hend.cursor_eq env _) (fun _ t ht => ht ▸ Cursor.isEnd_skipBlanks hended) fun _ _ _ => trivial
    | false => exact hf.isEnd env _

instance {fault : Fault} {n : Nat} : IsClosing (fail fault n : LineM α) := ⟨fun _ _ => trivial⟩
instance {fault : Fault} {n : Nat} {f : β → LineM α} : IsClosing (fail fault n >>= f) := ⟨fun _ _ => trivial⟩
instance : IsClosing skipStatement := ⟨fun _ _ => Cursor.isEnd_skipStatement⟩
instance : IsClosing expectEnd := ⟨fun _ _ => wp_expectEnd (fun h => Cursor.isEnd_skipBlanks h) fun _ => trivial⟩

instance (priority := high) {f : Unit → LineM α} [hf : ∀ b, KeepsPlace (f b)] : IsClosing (expectEnd >>= f) :=
  isClosing_keeps inferInstance hf

instance {x : LineM β} {f : β → LineM α} [hf : ∀ b, IsClosing (f b)] : IsClosing (x >>= f) := isClosing_bind hf

instance {p : Prop} [Decidable p] {x y : LineM α} [hx : IsClosing x] [hy : IsClosing y] :
    IsClosing (if p then x else y) := by
  split
  · exact hx
  · exact hy

/-! ### Directives -/

section
variable {start : Nat}

theorem isClosing_separated {item : LineM Unit} (hitem : ∀ n, Moves (Within n) item fun _ c => c.rest.length < n) :
    IsClosing (separated item) :=
  isClosing_of_moves (n := 0) (fun _ _ h => h) fun steps =>
    (moves_eachSeparated hitem steps).imp (fun _ h => Nat.le_of_eq h) fun _ _ h => h

instance {width : Nat} : IsClosing (equ width) := isClosing_separated fun _ => moves_dataItem
instance : IsClosing assert := isClosing_separated fun _ => moves_assertItem

instance : IsClosing print := by
  have hitems : IsClosing (do printItems [] ((← getCursor).rest.length + 1)) :=
    isClosing_of_moves (fun _ _ h => h) fun steps =>
      (moves_printItems [] steps).imp (fun _ h => Nat.lt_of_succ_le (Nat.le_of_eq h)) fun _ _ h => h
  unfold print
  rw [← bind_assoc]
  exact isClosing_keeps hitems fun items => inferInstance

instance : IsClosing org := by
  unfold org
  infer_instance

instance : IsClosing cpu := by
  unfold cpu
  infer_instance

instance : IsClosing guardAddress := by
  unfold guardAddress
  infer_instance

instance : IsClosing clear := by
  unfold clear
  infer_instance

instance : IsClosing (skip start) := by
  unfold skip
  infer_instance

instance : IsClosing (skipTo start) := by
  unfold skipTo
  infer_instance

instance : IsClosing (align start) := by
  unfold align
  infer_instance

instance : IsClosing mapCharacters := by
  unfold mapCharacters
  refine isClosing_bind fun _ => isClosing_bind fun _ => isClosing_bind fun _ => isClosing_bind fun _ => ?_
  refine isClosing_bind fun _ => isClosing_bind fun third => isClosing_keeps inferInstance fun _ => ?_
  cases third <;> infer_instance

instance : IsClosing (copyBlock start) := by
  unfold copyBlock
  infer_instance

instance : IsClosing randomize := by
  unfold randomize
  infer_instance

instance : IsClosing (error start) := by
  unfold error
  infer_instance

instance : IsClosing (includeBytes start) := by
  unfold includeBytes
  infer_instance

instance : IsClosing (save start) := by
  unfold save
  refine isClosing_bind fun _ => isClosing_bind fun _ => isClosing_bind fun _ => isClosing_bind fun _ => ?_
  refine isClosing_bind fun _ => isClosing_bind fun _ => isClosing_bind fun _ => isClosing_bind fun _ => ?_
  refine isClosing_bind fun _ => isClosing_keeps inferInstance fun _ => keepsPlace_bind inferInstance fun _ => ?_
  split <;> infer_instance

instance {kind : LinkKind} : IsClosing (putFile kind) := by
  unfold putFile
  infer_instance

instance : IsClosing putBasic := by
  unfold putBasic
  infer_instance

instance : IsClosing (includeFile start) := by
  unfold includeFile
  refine isClosing_bind fun _ => isClosing_bind fun _ => isClosing_keeps inferInstance fun _ => ?_
  refine keepsPlace_bind inferInstance fun walk => keepsPlace_when inferInstance fun _ => ?_
  refine keepsPlace_bind inferInstance fun env => ?_
  split
  · infer_instance
  refine keepsPlace_bind inferInstance fun _ => keepsPlace_bind inferInstance fun _ => ?_
  split <;> infer_instance

instance : IsClosing (next start) := by
  unfold next
  infer_instance

instance : IsClosing openText := by
  unfold openText
  infer_instance

instance : IsClosing assignment := by
  unfold assignment
  infer_instance

instance : IsClosing condition := by
  unfold condition
  infer_instance

instance : IsClosing (ifBlock start) := by
  unfold ifBlock
  infer_instance

instance : IsClosing (elifBlock start) := by
  unfold elifBlock
  infer_instance

instance : IsClosing (elseBlock start) := by
  unfold elseBlock
  infer_instance

instance : IsClosing (endif start) := by
  unfold endif
  infer_instance

instance : IsClosing (endMacro start) := by
  unfold endMacro
  refine isClosing_keeps inferInstance fun _ => ?_
  refine keepsPlace_bind inferInstance fun _ => keepsPlace_bind inferInstance fun _ => ?_
  refine keepsPlace_bind inferInstance fun _ => ?_
  split <;> infer_instance

theorem isClosing_parameters : IsClosing (do macroParameters [] ((← getCursor).rest.length + 1)) :=
  isClosing_of_moves (fun _ _ h => h.1) fun steps =>
    (moves_macroParameters [] steps fun _ h => by cases h).imp
      (fun _ h => Nat.lt_of_succ_le (Nat.le_of_eq h)) fun _ _ h => h

instance : IsClosing (macroHeader start) := by
  unfold macroHeader
  refine isClosing_bind fun _ => isClosing_bind fun _ => isClosing_bind fun name => isClosing_bind fun _ => ?_
  rw [← bind_assoc]
  exact isClosing_keeps isClosing_parameters fun parameters => inferInstance

/-! ### Loops -/

/-- Reads the arguments of a `FOR`, as the loop that goes on right after them. -/
def readLoop : LineM Loop := do
  skipBlanks
  let nameColumn ← column
  let name ← expectName
  expectComma
  let first ← (← number).take .any
  let limit ← (← number).take .any
  let step ← (← number).take (Rule.any.orElse 1)
  expectEnd
  modify fun s => { s with parts := #[.leaf .symbol name nameColumn] ++ s.parts }
  return ⟨name, first, limit, step, ← spot (← column)⟩

theorem forLoop_eq (start : Nat) :
    forLoop start = (do
      let l ← readLoop
      let spot ← spot start
      changeWalk start fun w r => w.startLoop r l spot) := by
  unfold readLoop forLoop
  simp only [bind_assoc, pure_bind]

theorem wp_readLoop : wp readLoop env s
    (fun l t => t.cursor.IsEnd ∧ IsPlain l.name ∧ l.resume = ⟨env.index, t.cursor.column⟩) fun _ _ => True := by
  refine wp_any fun _ t => wp_any fun nameColumn t => ?_
  rw [wp_bind]
  refine wp_mono (moves_expectName env t (Nat.le_refl _)) (fun name t hname => ?_) fun _ _ _ => trivial
  refine wp_any fun _ t => wp_any fun _ t => wp_any fun _ t => wp_any fun _ t => wp_any fun _ t => ?_
  refine wp_any fun _ t => wp_any fun _ t => ?_
  rw [wp_bind]
  refine wp_expectEnd (fun hend => ?_) fun _ => trivial
  exact ⟨Cursor.isEnd_skipBlanks hend, hname.2, rfl⟩

instance : IsClosing readLoop := ⟨fun _ _ => wp_mono wp_readLoop (fun _ _ ht => ht.1) fun _ _ _ => trivial⟩

instance : IsClosing (forLoop start) := by
  rw [forLoop_eq]
  exact isClosing_keeps inferInstance fun _ => inferInstance

/-- `NEXT` ends an iteration of the innermost loop. -/
theorem wp_next {Q : Unit → LineState → Prop} {E : Stop → LineState → Prop}
    (hQ : ∀ w r, s.cursor.atStatementEnd = true → s.walk.stepLoop s.run = .ok (w, r) →
      Q () { s with cursor := s.cursor.skipBlanks, walk := w, run := r })
    (hE : ∀ stop, E stop { s with cursor := s.cursor.skipBlanks }) : wp (next start) env s Q E := by
  unfold next
  rw [wp_bind]
  refine wp_expectEnd (fun hend => ?_) fun problem => hE _
  rw [Cursor.atStatementEnd_skipBlanks] at hend
  exact wp_changeWalk (fun w r hstep => hQ w r hend hstep) fun _ => hE _

end

/-! ### Instructions and calls -/

section
variable {m : Mnemonic} {start n : Nat} {k : Int} {known : Bool} {bracket : Nat}

instance : IsClosing (immediate m start) := by
  unfold immediate
  refine isClosing_bind fun _ => isClosing_bind fun opcode => ?_
  cases opcode <;> infer_instance

instance {opcode : UInt8} : IsClosing (accumulator opcode start) := by
  unfold accumulator
  infer_instance

instance : IsClosing indexRegister := by
  unfold indexRegister
  refine isClosing_bind fun _ => isClosing_bind fun _ => isClosing_bind fun register => ?_
  refine isClosing_when fun _ => isClosing_when fun _ => isClosing_bind fun _ => isClosing_keeps inferInstance fun _ => ?_
  split <;> infer_instance

instance : IsClosing addressModes := by
  refine isClosing_atEnd (inferInstanceAs (KeepsPlace (pure _))) ?_
  rw [if_neg Bool.false_ne_true]
  infer_instance

instance : IsClosing (address m start) := by
  unfold address
  refine isClosing_bind fun _ => isClosing_bind fun _ => isClosing_bind fun _ => isClosing_bind fun _ => ?_
  refine isClosing_bind fun opcode => ?_
  cases opcode with
  | none => exact isClosing_bind fun _ => isClosing_keeps inferInstance fun _ => inferInstance
  | some opcode => infer_instance

instance : IsClosing (indexedIndirect m k known start bracket) := by
  unfold indexedIndirect
  refine isClosing_bind fun _ => isClosing_bind fun _ => isClosing_bind fun register => ?_
  dsimp only
  split_ifs
  · infer_instance
  refine isClosing_bind fun _ => isClosing_bind fun _ => isClosing_bind fun _ => isClosing_when fun _ => ?_
  refine isClosing_bind fun _ => isClosing_bind fun _ => isClosing_keeps inferInstance fun _ => ?_
  refine keepsPlace_bind inferInstance fun _ => keepsPlace_bind inferInstance fun _ => ?_
  split <;> infer_instance

/-- What is read so far is given up if it turns out to be no operand of this kind. -/
theorem moves_indirectIndexed : Moves (fun _ => True) (indirectIndexed m k known start bracket)
    fun found c => found = true → c.IsEnd := by
  have hnone : Moves (fun _ => True) (pure false) fun found c => found = true → c.IsEnd :=
    moves_pure fun _ _ h => by cases h
  unfold indirectIndexed
  refine moves_any fun c => moves_any fun opcode => ?_
  cases opcode with
  | none => exact hnone
  | some opcode =>
    refine moves_ite (fun _ => hnone) fun _ => ?_
    exact (IsClosing.moves inferInstance).imp (fun _ h => h) fun _ _ h _ => h

theorem moves_indirect : Moves (fun _ => True) (indirect m start) fun found c => found = true → c.IsEnd := by
  unfold indirect
  refine moves_any fun _ => moves_any fun _ => moves_any fun _ => moves_any fun _ => moves_any fun _ => ?_
  refine moves_any fun _ => moves_any fun sign => ?_
  split
  · exact (IsClosing.moves (isClosing_keeps inferInstance inferInstance)).imp (fun _ h => h) fun _ _ h _ => h
  · refine moves_any fun _ env s _ => ?_
    rw [wp_bind, wp_atEnd]
    refine wp_cases (fun hended => ?_) fun _ => wp_any fun _ t => ?_
    · refine wp_mono (KeepsPlace.cursor_eq env _) (fun _ t ht _ => ?_) fun _ _ _ => trivial
      exact ht ▸ Cursor.isEnd_skipBlanks hended
    · exact wp_cases (fun _ => moves_indirectIndexed env t trivial) fun _ h => by cases h
  · exact moves_fail

instance : IsClosing (bracketed m start) where
  isEnd env s := by
    unfold bracketed
    rw [wp_bind, wp_get, wp_bind]
    refine wp_mono (moves_indirect env s trivial) (fun found t ht => ?_) fun _ _ _ => trivial
    cases found with
    | true => exact ht rfl
    | false =>
      have haddress : IsClosing (address m start) := inferInstance
      exact haddress.isEnd env _

instance : IsClosing (operand m start) := by
  refine isClosing_atEnd (inferInstanceAs (KeepsPlace (implied m start))) ?_
  refine isClosing_bind fun cursor => isClosing_bind fun run => ?_
  dsimp only
  split <;> infer_instance

instance : IsClosing (instruction m start) := isClosing_andThen inferInstance fun _ => rfl

/-- The arguments of a macro are read up to the end of the statement. -/
instance {parameters : List String} : IsClosing (bindArguments parameters) := by
  unfold bindArguments
  refine isClosing_bind fun _ => isClosing_atEnd (inferInstanceAs (KeepsPlace (pure ()))) ?_
  rw [if_pos Bool.not_false]
  infer_instance

instance {m : Macro} : IsClosing (macroCall m start) := by
  have hcall : IsClosing (LineM.andThen (do
      bindArguments m.parameters
      expand m start) fun s =>
    { s with
      walk := s.walk.closeExpansion
      nodes := s.nodes.push (.mk .macroCall m.name start s.parts.toList) }) :=
    isClosing_andThen (isClosing_keeps inferInstance inferInstance) fun _ => rfl
  unfold macroCall
  infer_instance

instance : IsClosing operation := by
  unfold operation
  refine isClosing_bind fun cursor => isClosing_bind fun run => ?_
  dsimp only
  split
  · infer_instance
  · refine isClosing_when fun _ => isClosing_bind fun _ => ?_
    split <;> infer_instance

end

/-- A label ends behind its name, whatever follows. -/
theorem place_label {start : Nat} :
    let name := s.cursor.skip (Promotion.ofMark s.cursor.peek).mark.length
    wp (label start) env s (fun _ t => t.cursor = name.name.2 ∧ name.atName = true) fun _ _ => True := by
  intro name
  unfold label
  simp only [wp_bind, wp_peek, wp_advance, wp_getCursor, wp_ite, wp_fail, wp_setCursor, wp_getWalk]
  split_ifs with hname
  have hname : name.atName = true := by simpa using hname
  split
  · trivial
  simp only [wp_bind, wp_getRun, wp_position, wp_ite]
  split_ifs
  · split
    · trivial
    · exact ⟨(rfl : name.name.2 = _), hname⟩
  · split
    · trivial
    · exact ⟨(rfl : name.name.2 = _), hname⟩

/-- All directives but labels, braces and separators, and `ASM` because of its text. -/
theorem isClosing_perform {d : Directive} {start : Nat} (hlabel : d ≠ .label) (hopen : d ≠ .openBrace)
    (hclose : d ≠ .closeBrace) (hseparator : d ≠ .separator) (hasm : d ≠ .asm) : IsClosing (perform d start) := by
  cases d
  case label => exact absurd rfl hlabel
  case openBrace => exact absurd rfl hopen
  case closeBrace => exact absurd rfl hclose
  case separator => exact absurd rfl hseparator
  case asm => exact absurd rfl hasm
  case comment => exact ⟨fun _ _ => Cursor.isEnd_skipLine⟩
  all_goals
    unfold perform
    infer_instance

end LineM
end Asm6502
