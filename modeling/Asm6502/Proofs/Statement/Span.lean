/-
# How far a skipped statement goes, and an executed one

A statement that is executed without a problem reads its arguments up to the end
of the statement, and what skips a statement gets just as far. This holds of the
steps of a statement one by one: a step is spanned if what skips a statement gets
from where it begins to where it ends. A bracket of an operand is spanned only
together with the one that closes it.

All statements but labels and braces go on to their end, and what is spanned and
goes on to the end ends where skipping ends.

Key definitions: `LineM.IsSpanned`, `LineM.EndsAsSkipped`.
Key theorems: `LineM.endsAsSkipped_perform`.
-/
import Asm6502.Proofs.Statement.Place

namespace Asm6502
namespace LineM

-- the statements are long, and so are the searches for their instances
set_option synthInstance.maxSize 1024

variable {α β : Type} {env : Setting} {s t : LineState} {c : Cursor}

/-- Whether a step begun in a state, if it succeeds, ends where what skips a
statement gets from `c`. -/
def SpansFrom (c : Cursor) (m : LineM α) (env : Setting) (s : LineState) : Prop :=
  wp m env s (fun _ t => c.Spans t.cursor) fun _ _ => True

/-- Whether what skips a statement gets from where a step begins to where it
ends. -/
class IsSpanned (m : LineM α) : Prop where
  spansFrom : ∀ env s, SpansFrom s.cursor m env s

/-! ### Putting steps together -/

theorem IsSpanned.from {m : LineM α} (h : IsSpanned m) (hc : c.Spans s.cursor) : SpansFrom c m env s :=
  wp_mono (h.spansFrom env s) (fun _ _ ht => hc.trans ht) fun _ _ _ => trivial

theorem spansFrom_bind {x : LineM β} {f : β → LineM α} (hx : SpansFrom c x env s)
    (hf : ∀ b t, c.Spans t.cursor → SpansFrom c (f b) env t) : SpansFrom c (x >>= f) env s := by
  unfold SpansFrom
  rw [wp_bind]
  exact wp_mono hx (fun b t ht => hf b t ht) fun _ _ _ => trivial

/-- A step that keeps its place, before others. -/
theorem spansFrom_keeps {x : LineM β} {f : β → LineM α} (hx : KeepsPlace x)
    (hf : ∀ b t, t.cursor = s.cursor → SpansFrom c (f b) env t) : SpansFrom c (x >>= f) env s := by
  unfold SpansFrom
  rw [wp_bind]
  exact wp_mono (hx.cursor_eq env s) (fun b t ht => hf b t ht) fun _ _ _ => trivial

theorem isSpanned_bind {x : LineM β} {f : β → LineM α} (hx : IsSpanned x) (hf : ∀ b, IsSpanned (f b)) :
    IsSpanned (x >>= f) :=
  ⟨fun env s => spansFrom_bind (hx.spansFrom env s) fun b _ ht => (hf b).from ht⟩

instance {x : LineM β} {f : β → LineM α} [hx : IsSpanned x] [hf : ∀ b, IsSpanned (f b)] : IsSpanned (x >>= f) :=
  isSpanned_bind hx hf

theorem isSpanned_ite {p : Prop} [Decidable p] {x y : LineM α} (hx : IsSpanned x) (hy : IsSpanned y) :
    IsSpanned (if p then x else y) := by
  split
  · exact hx
  · exact hy

instance {p : Prop} [Decidable p] {x y : LineM α} [hx : IsSpanned x] [hy : IsSpanned y] :
    IsSpanned (if p then x else y) := isSpanned_ite hx hy

/-- A step that is made under a condition, before others. -/
theorem isSpanned_when {p : Prop} [Decidable p] {x : LineM Unit} {f : Unit → LineM α} (hx : IsSpanned x)
    (hf : ∀ b, IsSpanned (f b)) : IsSpanned (if p then x >>= f else f ()) :=
  isSpanned_ite (isSpanned_bind hx hf) (hf ())

instance (priority := low) {m : LineM α} [h : KeepsPlace m] : IsSpanned m where
  spansFrom env s := wp_mono (h.cursor_eq env s) (fun _ _ ht => ht ▸ .refl _) fun _ _ _ => trivial

theorem isSpanned_andThen {m : LineM α} {last : LineState → LineState} (hm : IsSpanned m)
    (hlast : ∀ s, (last s).cursor = s.cursor) : IsSpanned (m.andThen last) where
  spansFrom env s := by
    unfold SpansFrom
    rw [wp_andThen]
    exact wp_mono (hm.spansFrom env s) (fun _ t ht => (hlast t).symm ▸ ht) fun _ _ _ => trivial

/-! ### Moving along the line -/

instance : IsSpanned skipBlanks := ⟨fun _ s => s.cursor.spans_skipBlanks⟩

instance : IsSpanned atEnd := ⟨fun _ s => s.cursor.spans_skipBlanks⟩

instance : IsSpanned expectEnd := ⟨fun _ s => wp_expectEnd (fun _ => s.cursor.spans_skipBlanks) fun _ => trivial⟩

instance : IsSpanned evaluate := by
  refine ⟨fun env s => ?_⟩
  unfold SpansFrom
  rw [wp_evaluate]
  exact ⟨fun e after he => Expr.spans_of_evaluate he, fun _ _ _ => trivial⟩

instance : IsSpanned expectComma := by
  refine ⟨fun env s => ?_⟩
  unfold SpansFrom expectComma
  simp only [wp_bind, wp_skipBlanks, wp_peek, wp_ite, wp_advance, wp_column, wp_fail]
  split_ifs with hcomma
  exact s.cursor.spans_skipBlanks.trans (Cursor.spans_skip_one (beq_iff_eq.mp hcomma) rfl)

instance : IsSpanned expectName := by
  refine ⟨fun env s => ?_⟩
  unfold SpansFrom expectName
  simp only [wp_bind, wp_skipBlanks, wp_getCursor, wp_ite, wp_fail, wp_setCursor, wp_pure]
  split_ifs
  exact s.cursor.spans_skipBlanks.trans (Cursor.spans_name _)

/-- A sign that may be left out. -/
theorem isSpanned_sign {x : Char} (hx : isOrdinary x = true) {f : Bool → LineM α} (hf : ∀ b, IsSpanned (f b)) :
    IsSpanned (do
      let found := (← peek) == some x
      if found then advance 1
      f found) := by
  refine ⟨fun env s => ?_⟩
  unfold SpansFrom
  simp only [wp_bind, wp_peek, wp_ite, wp_advance]
  split_ifs with hsign
  · exact (hf _).from (Cursor.spans_skip_one (beq_iff_eq.mp hsign) hx)
  · exact (hf _).spansFrom env s

/-! ### Arguments and items -/

instance {convert : Value → Except Fault α} : IsSpanned (argument convert) := by
  unfold argument
  infer_instance

instance : IsSpanned integer := inferInstanceAs (IsSpanned (argument Value.integer))
instance : IsSpanned number := inferInstanceAs (IsSpanned (argument Value.number))
instance : IsSpanned text := inferInstanceAs (IsSpanned (argument Value.text))

/-- A value that is no text is left where it was. -/
theorem spansFrom_optional {before : Cursor} (hs : before.Spans s.cursor) :
    SpansFrom before (do
      let e ← evaluate
      match e.value with
      | .str text =>
        pushPart e.node
        return some text
      | .num _ =>
        setCursor before
        return none) env s := by
  refine spansFrom_bind (IsSpanned.from inferInstance hs) fun e t ht => ?_
  cases e.value with
  | str text => exact ht
  | num x => exact .refl _

instance : IsSpanned optionalText := by
  refine ⟨fun env s => ?_⟩
  unfold SpansFrom optionalText
  simp only [wp_bind, wp_getCursor, wp_get, wp_atEnd, wp_ite, wp_pure, wp_peek, wp_advance]
  have hblanks := s.cursor.spans_skipBlanks
  split_ifs with hend hcomma hfirst
  · exact hblanks
  · exact hblanks
  · have hpeek : s.cursor.skipBlanks.peek = some ',' := by simpa [hfirst] using hcomma
    exact (wp_bind _ _).mp (spansFrom_optional (hblanks.trans (Cursor.spans_skip_one hpeek rfl)))
  · exact (wp_bind _ _).mp (spansFrom_optional hblanks)

instance isSpanned_eachSeparated {item : LineM Unit} [IsSpanned item] {steps : Nat} :
    IsSpanned (eachSeparated item steps) := by
  induction steps with
  | zero => exact inferInstanceAs (IsSpanned item)
  | succ steps ih =>
    unfold eachSeparated
    infer_instance

instance {item : LineM Unit} [IsSpanned item] : IsSpanned (separated item) := by
  unfold separated
  infer_instance

/-! ### Data and messages -/

instance {width : Nat} : IsSpanned (equ width) := by
  unfold equ
  infer_instance

instance : IsSpanned assert := by
  unfold assert
  infer_instance

instance isSpanned_printItems {before : List String} {steps : Nat} : IsSpanned (printItems before steps) := by
  induction steps generalizing before with
  | zero => exact inferInstanceAs (IsSpanned (pure before))
  | succ steps ih =>
    have hitem (hex : Bool) : IsSpanned (do
        let e ← evaluate
        pushPart e.node
        printItems (before ++ [printedText hex e.value]) steps) := inferInstance
    have hsigned := isSpanned_sign (x := '~') rfl hitem
    unfold printItems
    infer_instance

instance : IsSpanned print := by
  unfold print
  infer_instance

instance {start : Nat} : IsSpanned (error start) := by
  unfold error
  infer_instance

/-! ### Placing code and naming files -/

instance : IsSpanned org := by
  unfold org
  infer_instance

instance : IsSpanned cpu := by
  unfold cpu
  infer_instance

instance : IsSpanned guardAddress := by
  unfold guardAddress
  infer_instance

instance : IsSpanned clear := by
  unfold clear
  infer_instance

instance {start : Nat} : IsSpanned (skip start) := by
  unfold skip
  infer_instance

instance {start : Nat} : IsSpanned (skipTo start) := by
  unfold skipTo
  infer_instance

instance {start : Nat} : IsSpanned (align start) := by
  unfold align
  infer_instance

instance : IsSpanned mapCharacters := by
  unfold mapCharacters
  refine isSpanned_bind inferInstance fun _ => isSpanned_bind inferInstance fun _ => ?_
  refine isSpanned_bind inferInstance fun _ => isSpanned_bind inferInstance fun _ => ?_
  refine isSpanned_bind inferInstance fun _ => isSpanned_bind inferInstance fun third => ?_
  refine isSpanned_bind inferInstance fun _ => ?_
  split <;> infer_instance

instance {start : Nat} : IsSpanned (copyBlock start) := by
  unfold copyBlock
  infer_instance

instance : IsSpanned randomize := by
  unfold randomize
  infer_instance

instance {start : Nat} : IsSpanned (includeBytes start) := by
  unfold includeBytes
  infer_instance

instance {start : Nat} : IsSpanned (save start) := by
  unfold save
  refine isSpanned_bind inferInstance fun name => isSpanned_bind inferInstance fun _ => ?_
  refine isSpanned_bind inferInstance fun _ => isSpanned_bind inferInstance fun _ => ?_
  refine isSpanned_bind inferInstance fun _ => isSpanned_bind inferInstance fun _ => ?_
  refine isSpanned_bind inferInstance fun _ => isSpanned_bind inferInstance fun _ => ?_
  refine isSpanned_bind inferInstance fun _ => isSpanned_bind inferInstance fun _ => ?_
  refine isSpanned_bind inferInstance fun _ => ?_
  split <;> infer_instance

instance {kind : LinkKind} : IsSpanned (putFile kind) := by
  unfold putFile
  infer_instance

instance : IsSpanned putBasic := by
  unfold putBasic
  infer_instance

instance {start : Nat} : IsSpanned (includeFile start) := by
  unfold includeFile
  refine isSpanned_bind inferInstance fun _ => isSpanned_bind inferInstance fun _ => ?_
  refine isSpanned_bind inferInstance fun _ => isSpanned_bind inferInstance fun walk => ?_
  refine isSpanned_when inferInstance fun _ => isSpanned_bind inferInstance fun env => ?_
  split
  · infer_instance
  refine isSpanned_bind inferInstance fun _ => isSpanned_bind inferInstance fun _ => ?_
  split <;> infer_instance

/-! ### Definitions and blocks -/

instance {start : Nat} : IsSpanned (forLoop start) := by
  unfold forLoop
  refine isSpanned_bind inferInstance fun _ => isSpanned_bind inferInstance fun _ => ?_
  refine isSpanned_bind inferInstance fun name => isSpanned_bind inferInstance fun _ => ?_
  refine isSpanned_bind inferInstance fun _ => isSpanned_bind inferInstance fun _ => ?_
  refine isSpanned_bind inferInstance fun _ => isSpanned_bind inferInstance fun _ => ?_
  refine isSpanned_bind inferInstance fun _ => isSpanned_bind inferInstance fun _ => ?_
  refine isSpanned_bind inferInstance fun _ => ?_
  have hparts (node : Node) : KeepsPlace (modify fun s => { s with parts := #[node] ++ s.parts } : LineM Unit) :=
    keepsPlace_modify fun _ => rfl
  exact isSpanned_bind inferInstance fun _ => inferInstance

instance : IsSpanned condition := by
  unfold condition
  infer_instance

instance {start : Nat} : IsSpanned (elseBlock start) := by
  unfold elseBlock
  infer_instance

instance {start : Nat} : IsSpanned (endif start) := by
  unfold endif
  infer_instance

instance {start : Nat} : IsSpanned (endMacro start) := by
  unfold endMacro
  refine isSpanned_bind inferInstance fun _ => isSpanned_bind inferInstance fun _ => ?_
  refine isSpanned_bind inferInstance fun _ => isSpanned_bind inferInstance fun _ => ?_
  split <;> infer_instance

instance isSpanned_macroParameters {before : List String} {steps : Nat} :
    IsSpanned (macroParameters before steps) := by
  induction steps generalizing before with
  | zero => exact inferInstanceAs (IsSpanned (pure before))
  | succ steps ih =>
    unfold macroParameters
    infer_instance

instance {start : Nat} : IsSpanned (macroHeader start) := by
  unfold macroHeader
  infer_instance

/-- The name and the sign of an assignment have been looked for when it is
executed. -/
theorem spansFrom_assignment (h : s.cursor.atAssignment = true) : SpansFrom s.cursor assignment env s := by
  have hequals : s.cursor.name.2.skipBlanks.peek = some '=' := by
    simpa [Cursor.name] using (Bool.and_eq_true_iff.mp h).2
  have hsign : s.cursor.Spans (s.cursor.name.2.skipBlanks.skip 1) :=
    (s.cursor.spans_name.trans (Cursor.spans_skipBlanks _)).trans (Cursor.spans_skip_one hequals rfl)
  have hrest (name : String) (start : Nat) (conditional : Bool) : IsSpanned (do
      let full := fullName name (← getWalk).frames
      let position ← position start
      let e ← evaluate
      pushPart (.leaf .symbol full start)
      pushPart e.node
      pushNode .declaration name start
      expectEnd
      define full e position conditional start) := inferInstance
  have hread := isSpanned_sign (x := '?') rfl (hrest s.cursor.name.1 s.cursor.column)
  exact hread.from hsign

/-! ### Instructions -/

section
variable {m : Mnemonic} {start : Nat}

/-- A step past a sign that stands at the cursor, before others. -/
theorem spansFrom_past {x : Char} {f : Unit → LineM α} (hc : c.Spans s.cursor) (hpeek : s.cursor.peek = some x)
    (hx : isOrdinary x = true) (hf : IsSpanned (f ())) : SpansFrom c (advance 1 >>= f) env s :=
  spansFrom_bind (hc.trans (Cursor.spans_skip_one hpeek hx)) fun _ _ ht => hf.from ht

theorem spansFrom_immediate (hpeek : s.cursor.peek = some '#') : SpansFrom s.cursor (immediate m start) env s := by
  unfold immediate
  refine spansFrom_keeps inferInstance fun mark t ht => spansFrom_keeps inferInstance fun opcode u hu => ?_
  rw [← ht, ← hu] at hpeek ⊢
  split
  · trivial
  · exact spansFrom_past (.refl _) hpeek rfl inferInstance

theorem spansFrom_accumulator {opcode : UInt8} (hpeek : s.cursor.peek = some 'A' ∨ s.cursor.peek = some 'a') :
    SpansFrom s.cursor (accumulator opcode start) env s := by
  unfold accumulator
  refine spansFrom_keeps inferInstance fun mark t ht => ?_
  rw [← ht] at hpeek ⊢
  rcases hpeek with hpeek | hpeek
  · exact spansFrom_past (.refl _) hpeek rfl inferInstance
  · exact spansFrom_past (.refl _) hpeek rfl inferInstance

theorem spansFrom_indexRegister (hpeek : s.cursor.peek = some ',') : SpansFrom s.cursor indexRegister env s := by
  have hcomma : s.cursor.Spans (s.cursor.skip 1).skipBlanks :=
    (Cursor.spans_skip_one hpeek rfl).trans (Cursor.spans_skipBlanks _)
  have hregister {x : Char} (hx : (s.cursor.skip 1).skipBlanks.peek = some x) (hordinary : isOrdinary x = true) :
      s.cursor.Spans ((s.cursor.skip 1).skipBlanks.skip 1).skipBlanks :=
    (hcomma.trans (Cursor.spans_skip_one hx hordinary)).trans (Cursor.spans_skipBlanks _)
  unfold SpansFrom indexRegister
  simp only [wp_bind, wp_advance, wp_skipBlanks, wp_getCursor, wp_ite, wp_fail]
  split_ifs
  refine wp_expectEnd (fun _ => ?_) fun _ => trivial
  split
  · rename_i hx
    exact hregister hx rfl
  · rename_i hx
    exact hregister hx rfl
  · rename_i hx
    exact hregister hx rfl
  · rename_i hx
    exact hregister hx rfl
  · trivial

instance : IsSpanned addressModes := by
  refine ⟨fun env s => ?_⟩
  have hblanks := s.cursor.spans_skipBlanks
  unfold SpansFrom addressModes
  simp only [wp_bind, wp_atEnd, wp_ite, wp_pure, wp_peek, wp_column, wp_fail]
  split_ifs with hend hcomma
  · exact hblanks
  · exact wp_mono (spansFrom_indexRegister (beq_iff_eq.mp hcomma)) (fun _ _ ht => hblanks.trans ht) fun _ _ _ => trivial

instance : IsSpanned (address m start) := by
  unfold address
  refine isSpanned_bind inferInstance fun _ => isSpanned_bind inferInstance fun _ => ?_
  refine isSpanned_bind inferInstance fun _ => isSpanned_bind inferInstance fun _ => ?_
  refine isSpanned_bind inferInstance fun _ => ?_
  split <;> infer_instance

variable {n : Int} {known : Bool} {bracket : Nat} {d : Cursor}

/-- What follows the closing bracket of an indexed indirect operand. -/
theorem isSpanned_indexedEnd : IsSpanned (do
    pushPart (.leaf .value "X" bracket)
    expectEnd
    match (← opcode? m .indexedIndirect), (← opcode? m .absoluteIndexedIndirect) with
    | some opcode, _ =>
      checkZeroPage n known bracket
      emitByte opcode n known start
    | none, some opcode =>
      checkAddress n known bracket
      emitWord opcode n known start
    | none, none => fail .noIndexedX bracket) := by
  refine isSpanned_bind inferInstance fun _ => isSpanned_bind inferInstance fun _ => ?_
  refine isSpanned_bind inferInstance fun _ => isSpanned_bind inferInstance fun _ => ?_
  split <;> infer_instance

/-- The brackets are those around the index register, too. -/
theorem spansFrom_indexedIndirect (hopen : c.Passes ['('] d) (hd : d.Spans s.cursor)
    (hpeek : s.cursor.peek = some ',') : SpansFrom c (indexedIndirect m n known start bracket) env s := by
  have hcomma := (hd.trans (Cursor.spans_skip_one hpeek rfl)).trans (Cursor.spans_skipBlanks _)
  unfold SpansFrom indexedIndirect
  rw [wp_bind, wp_advance, wp_bind, wp_skipBlanks, wp_bind, wp_peek, wp_ite]
  split_ifs with hregister
  · trivial
  rw [wp_bind, wp_advance, wp_bind, wp_skipBlanks, wp_bind, wp_peek, wp_ite]
  split_ifs with hclosing
  · trivial
  rw [wp_bind, wp_advance]
  refine isSpanned_indexedEnd.from (Cursor.Spans.bracketed hopen ?_
    (Cursor.passes_one_iff.mpr ⟨by simpa using hclosing, rfl⟩))
  have hx : (s.cursor.skip 1).skipBlanks.peek = some 'X' ∨ (s.cursor.skip 1).skipBlanks.peek = some 'x' := by
    simpa [or_iff_not_imp_left] using hregister
  rcases hx with hx | hx
  · exact hcomma.trans (Cursor.spans_skip_one hx rfl)
  · exact hcomma.trans (Cursor.spans_skip_one hx rfl)

/-- What is read so far is given up if it turns out to be no operand of this kind. -/
def SpansIf (c : Cursor) (x : LineM Bool) (env : Setting) (s : LineState) : Prop :=
  wp x env s (fun found t => found = true → c.Spans t.cursor) fun _ _ => True

theorem spansIf_indirectIndexed (hc : c.Spans s.cursor) (hpeek : s.cursor.peek = some ',') :
    SpansIf c (indirectIndexed m n known start bracket) env s := by
  have hcomma := (hc.trans (Cursor.spans_skip_one hpeek rfl)).trans (Cursor.spans_skipBlanks _)
  have hrest (node : Node) (opcode : UInt8) : IsSpanned (do
      pushPart node
      expectEnd
      checkZeroPage n known bracket
      emitByte opcode n known start
      return true) := inferInstance
  unfold SpansIf indirectIndexed
  rw [wp_bind, wp_getCursor, wp_bind]
  refine wp_mono (KeepsPlace.cursor_eq (m := opcode? m .indirectIndexed) env s) (fun opcode t ht => ?_)
    fun _ _ _ => trivial
  split
  · exact fun hfound => by cases hfound
  rw [wp_ite]
  split_ifs with hregister
  · exact fun hfound => by cases hfound
  have hx : (s.cursor.skip 1).skipBlanks.peek = some 'Y' ∨ (s.cursor.skip 1).skipBlanks.peek = some 'y' := by
    simpa [or_iff_not_imp_left] using hregister
  have hy : c.Spans ((s.cursor.skip 1).skipBlanks.skip 1) := by
    rcases hx with hx | hx
    · exact hcomma.trans (Cursor.spans_skip_one hx rfl)
    · exact hcomma.trans (Cursor.spans_skip_one hx rfl)
  rw [wp_bind, wp_setCursor]
  exact wp_mono ((hrest _ _).from hy) (fun _ _ hu _ => hu) fun _ _ _ => trivial

theorem spansIf_indirect (hpeek : s.cursor.peek = some '(') : SpansIf s.cursor (indirect m start) env s := by
  have hopen : s.cursor.Passes ['('] (s.cursor.skip 1) := Cursor.passes_of_peek hpeek rfl
  unfold SpansIf indirect
  rw [wp_bind, wp_column, wp_bind, wp_advance, wp_bind]
  refine wp_mono (IsSpanned.spansFrom (m := evaluate) env _) (fun e t ht => ?_) fun _ _ _ => trivial
  have ht : (s.cursor.skip 1).Spans t.cursor := ht
  rw [wp_bind, wp_ofFault]
  refine ⟨fun value _ => ?_, fun _ _ => trivial⟩
  rw [wp_bind, wp_pushPart, wp_bind, wp_skipBlanks, wp_bind, wp_peek]
  split
  · rename_i hcomma
    rw [wp_bind]
    refine wp_mono (spansFrom_indexedIndirect hopen (ht.trans (Cursor.spans_skipBlanks _)) hcomma) ?_
      fun _ _ _ => trivial
    exact fun _ _ hu _ => hu
  · rename_i hclosing
    have hclosed : s.cursor.Spans (t.cursor.skipBlanks.skip 1) :=
      ht.bracketed hopen (Cursor.passes_one_iff.mpr ⟨hclosing, rfl⟩)
    have hblanks := hclosed.trans (Cursor.spans_skipBlanks _)
    rw [wp_bind, wp_advance, wp_bind, wp_atEnd, wp_ite]
    split_ifs
    · refine wp_mono (KeepsPlace.cursor_eq env _) (fun _ u hu _ => ?_) fun _ _ _ => trivial
      rw [hu]
      exact hblanks
    · rw [wp_bind, wp_peek, wp_ite]
      split_ifs with hcomma
      · exact spansIf_indirectIndexed hblanks (beq_iff_eq.mp hcomma)
      · exact fun hfound => by cases hfound
  · trivial

theorem spansFrom_bracketed (hpeek : s.cursor.peek = some '(') : SpansFrom s.cursor (bracketed m start) env s := by
  unfold SpansFrom bracketed
  rw [wp_bind, wp_get, wp_bind]
  refine wp_mono (spansIf_indirect hpeek) (fun found t ht => ?_) fun _ _ _ => trivial
  cases found with
  | true => exact ht rfl
  | false => exact IsSpanned.from (m := address m start) inferInstance (Cursor.Spans.refl _)

instance : IsSpanned (operand m start) := by
  refine ⟨fun env s => ?_⟩
  have hfrom {x : LineM Unit} (hx : SpansFrom s.cursor.skipBlanks x env { s with cursor := s.cursor.skipBlanks }) :
      SpansFrom s.cursor x env { s with cursor := s.cursor.skipBlanks } :=
    wp_mono hx (fun _ _ ht => s.cursor.spans_skipBlanks.trans ht) fun _ _ _ => trivial
  have haddress : SpansFrom s.cursor (address m start) env { s with cursor := s.cursor.skipBlanks } :=
    hfrom (IsSpanned.spansFrom env _)
  unfold SpansFrom operand
  rw [wp_bind, wp_atEnd, wp_ite]
  split_ifs
  · exact hfrom (IsSpanned.spansFrom env _)
  rw [wp_bind, wp_getCursor, wp_bind, wp_getRun]
  dsimp only
  split
  · rename_i hpeek
    exact hfrom (spansFrom_immediate hpeek)
  · rename_i hpeek
    rw [wp_ite]
    split_ifs
    · exact hfrom (spansFrom_bracketed hpeek)
    · exact haddress
  · rename_i hpeek _
    rw [wp_ite]
    split_ifs
    · exact hfrom (spansFrom_accumulator (Or.inl hpeek))
    · exact haddress
  · rename_i hpeek _
    rw [wp_ite]
    split_ifs
    · exact hfrom (spansFrom_accumulator (Or.inr hpeek))
    · exact haddress
  · exact haddress

instance : IsSpanned (instruction m start) := isSpanned_andThen inferInstance fun _ => rfl

end

/-! ### Macro calls -/

instance isSpanned_bindEach {first : Bool} {parameters : List String} : IsSpanned (bindEach first parameters) := by
  induction parameters generalizing first with
  | nil => exact inferInstanceAs (IsSpanned (pure ()))
  | cons parameter parameters ih =>
    have hbind (full : String) : IsSpanned (do
        let e ← evaluate
        pushPart e.node
        if e.known then modifySymbols (·.add full e.value false none)
        bindEach false parameters) := inferInstance
    have hrelease : IsSpanned (do
        let full := fullName parameter (← getWalk).frames
        if ← isSecondPass then modifySymbols (·.erase full)
        let e ← evaluate
        pushPart e.node
        if e.known then modifySymbols (·.add full e.value false none)
        bindEach false parameters) := inferInstance
    unfold bindEach
    infer_instance

instance {parameters : List String} : IsSpanned (bindArguments parameters) := by
  unfold bindArguments
  infer_instance

instance {m : Macro} {start : Nat} : IsSpanned (macroCall m start) := by
  have hcall : IsSpanned (do
      bindArguments m.parameters
      expand m start) := inferInstance
  have hclosed : IsSpanned (LineM.andThen (do
      bindArguments m.parameters
      expand m start) fun s =>
    { s with
      walk := s.walk.closeExpansion
      nodes := s.nodes.push (.mk .macroCall m.name start s.parts.toList) }) :=
    isSpanned_andThen hcall fun _ => rfl
  unfold macroCall
  infer_instance

/-! ### Directives -/

/-- Whether a step that succeeds ends where what skips a statement ends, begun at
the same place. -/
class EndsAsSkipped (m : LineM α) : Prop where
  ends : ∀ env s, wp m env s (fun _ t => t.cursor = s.cursor.skipStatement) fun _ _ => True

theorem endsAsSkipped_from {m : LineM α} (hspan : SpansFrom c m env s) (hclose : IsClosing m) :
    wp m env s (fun _ t => t.cursor = c.skipStatement) fun _ _ => True :=
  wp_mono (wp_and hspan (hclose.isEnd env s))
    (fun _ _ ht => ht.2.2.symm.trans (ht.1.skipStatement_eq ht.2.1).symm) fun _ _ _ => trivial

instance {m : LineM α} [hspan : IsSpanned m] [hclose : IsClosing m] : EndsAsSkipped m :=
  ⟨fun env s => endsAsSkipped_from (hspan.spansFrom env s) hclose⟩

instance : EndsAsSkipped skipStatement := ⟨fun _ _ => rfl⟩

/-- What keeps its place may come before. -/
theorem endsAsSkipped_keeps {x : LineM β} {f : β → LineM α} (hx : KeepsPlace x) (hf : ∀ b, EndsAsSkipped (f b)) :
    EndsAsSkipped (x >>= f) where
  ends env s := by
    rw [wp_bind]
    refine wp_mono (hx.cursor_eq env s) (fun b t ht => ?_) fun _ _ _ => trivial
    rw [← ht]
    exact (hf b).ends env t

instance {p : Prop} [Decidable p] {x y : LineM α} [hx : EndsAsSkipped x] [hy : EndsAsSkipped y] :
    EndsAsSkipped (if p then x else y) := by
  split
  · exact hx
  · exact hy

instance {start : Nat} : EndsAsSkipped (ifBlock start) := by
  unfold ifBlock
  refine endsAsSkipped_keeps inferInstance fun _ => endsAsSkipped_keeps inferInstance fun _ => ?_
  exact endsAsSkipped_keeps inferInstance fun _ => inferInstance

instance {start : Nat} : EndsAsSkipped (elifBlock start) := by
  unfold elifBlock
  refine endsAsSkipped_keeps inferInstance fun _ => endsAsSkipped_keeps inferInstance fun started => ?_
  refine endsAsSkipped_keeps inferInstance fun _ => endsAsSkipped_keeps inferInstance fun _ => inferInstance

end LineM

/-- Whether a directive is a whole statement up to its end: it is no sign and no
label, and it neither ends an iteration nor executes a text. -/
def Directive.isWhole : Directive → Bool
  | label | openBrace | closeBrace | comment | separator | next | asm => false
  | _ => true

namespace LineM

theorem endsAsSkipped_perform {d : Directive} (start : Nat) (hd : d.isWhole = true) :
    EndsAsSkipped (perform d start) := by
  cases d with
  | label | openBrace | closeBrace | comment | separator | next | asm => cases hd
  | _ =>
    unfold perform
    infer_instance

end LineM

theorem Mnemonic.spans_of_find? {c : Cursor} {cpu : UInt8} {m : Mnemonic}
    (h : Mnemonic.find? c.rest cpu = some m) : c.Spans (c.skip 3) := by
  have hall : ∀ m ∈ Mnemonic.table, m.name.toList.length = 3 ∧ m.name.toList.all isOrdinary = true := by decide
  unfold find? at h
  split_ifs at h
  obtain ⟨hfind, -⟩ := Option.filter_eq_some_iff.mp h
  obtain ⟨hlength, hordinary⟩ := hall m (List.mem_of_find?_eq_some hfind)
  have hstarts := List.find?_some hfind
  rw [← hlength]
  exact Cursor.spans_startsWith hordinary hstarts

namespace LineM

/-! ### Instructions and calls -/

instance : EndsAsSkipped operation := by
  refine ⟨fun env s => ?_⟩
  unfold operation
  rw [wp_bind, wp_getCursor, wp_bind, wp_getRun]
  split
  · rename_i m hfind
    rw [wp_bind, wp_advance, (Mnemonic.spans_of_find? hfind).skipStatement_congr]
    have hinstruction : EndsAsSkipped (instruction m s.cursor.column) := inferInstance
    exact hinstruction.ends env { s with cursor := s.cursor.skip 3 }
  · rw [wp_ite]
    split_ifs
    · trivial
    rw [wp_bind, wp_setCursor]
    split
    · rename_i m _
      rw [s.cursor.spans_name.skipStatement_congr]
      have hcall : EndsAsSkipped (macroCall m s.cursor.column) := inferInstance
      exact hcall.ends env { s with cursor := s.cursor.name.2 }
    · trivial

theorem ends_assignment {env : Setting} {s : LineState} (h : s.cursor.atAssignment = true) :
    wp assignment env s (fun _ t => t.cursor = s.cursor.skipStatement) fun _ _ => True :=
  endsAsSkipped_from (spansFrom_assignment h) inferInstance

end LineM
end Asm6502
