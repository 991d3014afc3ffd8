/-
# The grammar of expressions

What an expression means, read off its text from the left: an operand is a
literal, a symbol, a bracketed expression, a call with as many arguments as the
function takes, or one of these behind any number of signs; binary operators
stand on a ladder, bind to the left on each rung, and the operands of a rung are
the expressions of the tighter ones. A bracket leaves no trace in the tree.

The evaluator has no such recursion, only its two stacks. Both agree: it gives a
value exactly if the grammar does for an expression that no operator follows,
and then the value, the tree, the place after it, the generator and the uses of
symbols are those of the grammar.

From the text to the grammar the argument is by the length of the text, and what
is carried along is an evaluation that goes on with the operand on its stack;
from the grammar to the evaluator it is by the rules.

Key definitions: `BinaryOp.ladder`, `Expr.Derives`, `Expr.Denotes`.
Key theorems: `Expr.Derives.continues`, `Expr.parses`, `Expr.evaluate_iff_denotes`.
-/
import Asm6502.Proofs.Expr.Stacks
import Asm6502.Proofs.Text.Place

namespace Asm6502

/-! ### The grammar -/

/-- The binary operators, those that bind tightest first. -/
def BinaryOp.ladder : List (List BinaryOp) :=
  [[power],
   [times, divide, modulo, integerDivide, shiftLeft, shiftRight],
   [add, subtract],
   [equal, notEqual, lessOrEqual, greaterOrEqual, less, greater],
   [and],
   [or, exclusiveOr]]

namespace Expr

/-- The kinds of phrases. -/
inductive Phrase
  /-- Operands joined by operators of the first rungs of the ladder; with no rung,
  a single operand. -/
  | level (rungs : Nat)
  /-- Expressions separated by commas. -/
  | arguments (count : Nat)

/-- An expression may have operators of all rungs. -/
abbrev Phrase.expression : Phrase := .level BinaryOp.ladder.length

/-- The phrase at a cursor, in a state, gives operands, of which all are known
or not, and ends at a cursor, in a state. `EVAL` may be nested as deep as the
allowance. -/
inductive Derives (ctx : Context) :
    Nat → Phrase → Cursor → State → List Operand → Bool → Cursor → State → Prop
  /-- A literal, a symbol, the program counter or the time. -/
  | atom {allowance : Nat} {c : Cursor} {s t : State} {a : Atom} {column n : Nat} {o : Operand}
      {known : Bool} :
      Token.valueToken? c.skipBlanks = some (.atom a column, n) →
      atomOperand ctx column a s = .ok (o, known) t →
      Derives ctx allowance (.level 0) c s [o] known (c.skipBlanks.skip n) t
  /-- An operand behind a sign. -/
  | signed {allowance : Nat} {c d e : Cursor} {s t : State} {op : UnaryOp} {a : Operand}
      {known : Bool} {value : Value} :
      c.Passes [op.sign] d →
      Derives ctx allowance (.level 0) d s [a] known e t →
      op.apply a.value = .ok value →
      Derives ctx allowance (.level 0) c s
        [⟨value, .mk .function (String.singleton op.sign) c.skipBlanks.column [a.node]⟩] known e t
  /-- A bracketed expression. -/
  | bracketed {allowance : Nat} {c d e f : Cursor} {s t : State} {o : Operand} {known : Bool} :
      c.Passes ['('] d →
      Derives ctx allowance .expression d s [o] known e t →
      e.Passes [')'] f →
      Derives ctx allowance (.level 0) c s [o] known f t
  /-- A call of a function other than `EVAL`. -/
  | call {allowance : Nat} {c d e : Cursor} {s t : State} {f : Function} {args : List Operand}
      {known : Bool} {value : Value} {random : Random} :
      f ≠ .eval →
      Function.find? c.skipBlanks.rest = some f →
      Derives ctx allowance (.arguments f.arity) (c.skipBlanks.skip (f.name.length + 1)) s args known d t →
      d.Passes [')'] e →
      f.apply ctx.clock (args.map Operand.value) t.random = .ok (value, random) →
      Derives ctx allowance (.level 0) c s
        [⟨value, .mk .function f.name c.skipBlanks.column (args.map Operand.node)⟩] known e
        { t with random }
  /-- `EVAL` of a text that is an expression as a whole. -/
  | eval {allowance : Nat} {c d e stop : Cursor} {s s' t : State} {text : String} {node : Node}
      {o : Operand} {known sure : Bool} :
      Function.find? c.skipBlanks.rest = some .eval →
      Derives ctx (allowance + 1) (.arguments Function.eval.arity)
        (c.skipBlanks.skip (Function.eval.name.length + 1)) s [⟨.str text, node⟩] known d s' →
      d.Passes [')'] e →
      Derives ctx allowance .expression (Cursor.ofText text).skipBlanks s' [o] sure stop t →
      BinaryOp.find? stop.skipBlanks.rest = none →
      stop.atStatementEnd = true →
      Derives ctx (allowance + 1) (.level 0) c s
        [⟨o.value, .mk .function Function.eval.name c.skipBlanks.column [node]⟩] (known && sure) e t
  /-- No operator of the next rung. -/
  | tighter {allowance rungs : Nat} {c d : Cursor} {s t : State} {o : Operand} {known : Bool} :
      Derives ctx allowance (.level rungs) c s [o] known d t →
      Derives ctx allowance (.level (rungs + 1)) c s [o] known d t
  /-- An operator of the last rung, which binds to the left. -/
  | binary {allowance rungs : Nat} {c d e : Cursor} {s s' t : State} {spelling : String}
      {op : BinaryOp} {a b : Operand} {known known' : Bool} {value : Value} :
      Derives ctx allowance (.level (rungs + 1)) c s [a] known d s' →
      BinaryOp.find? d.skipBlanks.rest = some (spelling, op) →
      op ∈ BinaryOp.ladder.getD rungs [] →
      Derives ctx allowance (.level rungs) (d.skipBlanks.skip spelling.length) s' [b] known' e t →
      op.apply a.value b.value = .ok value →
      Derives ctx allowance (.level (rungs + 1)) c s
        [⟨value, .mk .binaryOp spelling d.skipBlanks.column [a.node, b.node]⟩] (known && known') e t
  /-- The last argument. -/
  | last {allowance : Nat} {c d : Cursor} {s t : State} {o : Operand} {known : Bool} :
      Derives ctx allowance .expression c s [o] known d t →
      Derives ctx allowance (.arguments 1) c s [o] known d t
  /-- An argument before others. -/
  | more {allowance count : Nat} {c d e f : Cursor} {s s' t : State} {o : Operand}
      {args : List Operand} {known known' : Bool} :
      Derives ctx allowance .expression c s [o] known d s' →
      d.Passes [','] e →
      Derives ctx allowance (.arguments count) e s' args known' f t →
      Derives ctx allowance (.arguments (count + 1)) c s (o :: args) (known && known') f t

/-- The longest expression at a cursor and its tree: no operator follows it. -/
def Denotes (ctx : Context) (allowance : Nat) (c : Cursor) (s : State) (e : Evaluated) (t : State) :
    Prop :=
  ∃ o stop, Derives ctx allowance .expression c s [o] e.known stop t ∧
    BinaryOp.find? stop.skipBlanks.rest = none ∧ e.stop = stop.skipBlanks ∧ e.value = o.value ∧
    e.node = .mk .expression (spelling (c.upTo e.stop)) c.column [o.node]

/-! ### The ladder and the precedences -/

theorem precedence_mem (op : BinaryOp) : 2 ≤ op.precedence ∧ op.precedence ≤ 7 := by
  cases op <;> decide

theorem mem_ladder_iff (op : BinaryOp) (rungs : Nat) :
    op ∈ BinaryOp.ladder.getD rungs [] ↔ op.precedence + rungs = 7 := by
  by_cases h : rungs < 6
  · have hall : ∀ rungs < 6, op ∈ BinaryOp.ladder.getD rungs [] ↔ op.precedence + rungs = 7 := by
      cases op <;> decide
    exact hall rungs h
  · have hnil : BinaryOp.ladder.getD rungs [] = [] := by
      rw [List.getD_eq_getElem?_getD, List.getElem?_eq_none (by simpa [BinaryOp.ladder] using h)]
      rfl
    have hlow := (precedence_mem op).1
    rw [hnil]
    simp only [List.not_mem_nil, false_iff]
    omega

theorem binary_le_unary (op : BinaryOp) (sign : UnaryOp) : op.precedence ≤ sign.precedence := by
  have := (precedence_mem op).2
  cases sign <;> simp only [UnaryOp.precedence] <;> omega

/-- Whether what waits on top lets operators of the first rungs bind first. -/
def Yields (rungs : Nat) (pending : List Pending) : Prop :=
  ∀ op : BinaryOp, 8 ≤ op.precedence + rungs → ∀ p ∈ pending.head?, p.binds op.precedence = false

/-- Whether the next operator, if any, is on a later rung. -/
def NextBelow (rungs : Nat) (c : Cursor) : Prop :=
  ∀ spelling op, BinaryOp.find? c.skipBlanks.rest = some (spelling, op) → op.precedence + rungs < 8

theorem Yields.mono {rungs : Nat} {pending : List Pending} (h : Yields (rungs + 1) pending) :
    Yields rungs pending := fun op hop => h op (by omega)

theorem NextBelow.mono {rungs rungs' : Nat} {c : Cursor} (h : NextBelow rungs c) (hle : rungs' ≤ rungs) :
    NextBelow rungs' c := fun spelling op hop => by
  have := h spelling op hop
  omega

theorem nextBelow_zero (c : Cursor) : NextBelow 0 c := fun _ op _ => by
  have := (precedence_mem op).2
  omega

theorem yields_zero (pending : List Pending) : Yields 0 pending := fun op hop => by
  have := (precedence_mem op).2
  omega

theorem yields_nil (rungs : Nat) : Yields rungs [] := fun _ _ _ hp => by cases hp

theorem yields_of_bracket {p : Pending} (hp : p.isOperator = false) (rungs : Nat)
    (pending : List Pending) : Yields rungs (p :: pending) := by
  rintro op - _ ⟨⟩
  have hnone : p.precedence? = none := by simpa [Pending.isOperator] using hp
  rw [Pending.binds, hnone]
  rfl

theorem yields_binary {op : BinaryOp} {rungs : Nat} (hop : op.precedence + rungs = 7)
    (spelling : String) (column : Nat) (pending : List Pending) :
    Yields rungs (.binary op spelling column :: pending) := by
  rintro op' hop' _ ⟨⟩
  simp only [Pending.binds, Pending.precedence?, Option.any_some, decide_eq_false_iff_not]
  omega

theorem NextBelow.find?_eq_none {c : Cursor} (h : NextBelow BinaryOp.ladder.length c) :
    BinaryOp.find? c.skipBlanks.rest = none := by
  cases hfind : BinaryOp.find? c.skipBlanks.rest with
  | none => rfl
  | some pair =>
    have hlt := h pair.1 pair.2 hfind
    have := (precedence_mem pair.2).1
    simp only [BinaryOp.ladder, List.length_cons, List.length_nil] at hlt
    omega

theorem nextBelow_of_separator {c d : Cursor} {signs : List Char} (h : c.Passes signs d)
    (hsigns : ∀ x ∈ signs, x = ')' ∨ x = ',') (rungs : Nat) : NextBelow rungs c := by
  rintro spelling op hop
  obtain ⟨⟨x, hx, hpeek⟩, -⟩ := h
  obtain ⟨y, ys, hrest, hclosing, hcomma⟩ := BinaryOp.exists_ne_of_find? hop
  rw [Cursor.peek, hrest] at hpeek
  obtain rfl : y = x := Option.some.inj hpeek
  rcases hsigns y hx with rfl | rfl
  · exact absurd rfl hclosing
  · exact absurd rfl hcomma

/-! ### From the grammar to the evaluator -/

theorem Derives.length_arguments {ctx : Context} {allowance count : Nat} {c d : Cursor} {s t : State}
    {args : List Operand} {known : Bool}
    (h : Derives ctx allowance (.arguments count) c s args known d t) :
    args.length = count ∧ 0 < count := by
  generalize hphrase : Phrase.arguments count = phrase at h
  induction h generalizing count with
  | last => cases hphrase; exact ⟨rfl, Nat.one_pos⟩
  | more _ _ _ _ ih =>
    cases hphrase
    exact ⟨congrArg (· + 1) (ih rfl).1, Nat.succ_pos _⟩
  | _ => cases hphrase

/-- What a phrase does for an evaluation that stands before it: if the evaluation
succeeds from after the phrase with its operands on the stack, then it succeeds. -/
def Continues (ctx : Context) (allowance : Nat) : Phrase → Cursor → State → List Operand → Bool →
    Cursor → State → Prop
  | .level rungs, c, s, args, known, d, t =>
    ∀ {operands pending before r u}, Yields rungs pending → NextBelow (rungs - 1) d →
      Stacks.finish (evaluateText ctx allowance) ctx d
        ⟨args ++ operands, pending, false, before && known⟩ t = .ok r u →
      Stacks.finish (evaluateText ctx allowance) ctx c ⟨operands, pending, true, before⟩ s = .ok r u
  | .arguments count, c, s, args, known, d, t =>
    ∀ {operands pending before r u f column} (read : Nat), d.skipBlanks.peek = some ')' →
      Stacks.finish (evaluateText ctx allowance) ctx d
        ⟨args.reverse ++ operands, .call f (read + count - 1) column :: pending, false,
          before && known⟩ t = .ok r u →
      Stacks.finish (evaluateText ctx allowance) ctx c
        ⟨operands, .call f read column :: pending, true, before⟩ s = .ok r u

theorem Derives.continues {ctx : Context} {allowance : Nat} {phrase : Phrase} {c d : Cursor}
    {s t : State} {args : List Operand} {known : Bool}
    (h : Derives ctx allowance phrase c s args known d t) :
    Continues ctx allowance phrase c s args known d t := by
  induction h with
  | atom htoken hatom =>
    intro operands pending before r u _ _ hrest
    rw [Stacks.finish_atom htoken, Eval.bind_ok_iff]
    exact ⟨_, _, hatom, hrest⟩
  | signed hpass _ happly ih =>
    intro operands pending before r u _ _ hrest
    obtain ⟨hpeek, rfl⟩ := Cursor.passes_one_iff.mp hpass
    rw [Stacks.finish_unary hpeek]
    refine ih (yields_zero _) (nextBelow_zero _) ?_
    rw [List.singleton_append, Stacks.finish_reduce_ok_iff rfl fun _ op _ => binary_le_unary op _]
    exact ⟨_, Stacks.reduce_unary_iff.mpr ⟨_, happly, rfl⟩, hrest⟩
  | bracketed hopen _ hclose ih =>
    intro operands pending before r u _ _ hrest
    obtain ⟨hpeek, rfl⟩ := Cursor.passes_one_iff.mp hopen
    obtain ⟨hpeek', rfl⟩ := Cursor.passes_one_iff.mp hclose
    rw [Stacks.finish_opening hpeek]
    refine ih (yields_of_bracket rfl _ _) (nextBelow_of_separator hclose (by simp) _) ?_
    rw [List.singleton_append, Stacks.finish_closing_bracket hpeek']
    exact hrest
  | @call _ _ _ _ _ t _ _ _ value random hf hfind hargs hclose happly ih =>
    intro operands pending before r u _ _ hrest
    obtain ⟨hpeek, rfl⟩ := Cursor.passes_one_iff.mp hclose
    obtain ⟨hlength, hpos⟩ := hargs.length_arguments
    rw [Stacks.finish_call hfind]
    refine ih 0 hpeek ?_
    rw [Stacks.finish_closing_taken hpeek (by omega) hlength, Eval.bind_ok_iff]
    refine ⟨(value, true), { t with random }, ?_, ?_⟩
    · rw [callValue_of_ne hf, happly]
    · simpa using hrest
  | @eval _ _ _ _ _ _ _ t _ _ o _ sure hfind hargs hclose _ hnext hend ih ihtext =>
    intro operands pending before r u _ _ hrest
    obtain ⟨hpeek, rfl⟩ := Cursor.passes_one_iff.mp hclose
    rw [Stacks.finish_call hfind]
    refine ih 0 hpeek ?_
    rw [Stacks.finish_closing_taken hpeek rfl rfl, Eval.bind_ok_iff]
    refine ⟨(o.value, sure), t, ?_, ?_⟩
    · rw [callValue_eval]
      refine evaluateText_ok_iff.mpr ⟨o, _, ?_, (Cursor.atStatementEnd_skipBlanks _).trans hend, rfl⟩
      refine ihtext (yields_nil _) (fun spelling op hop => ?_) ?_
      · rw [hnext] at hop
        cases hop
      · exact congrFun (Stacks.finish_end o hnext) t
    · simpa [Bool.and_assoc] using hrest
  | tighter _ ih =>
    intro operands pending before r u htop hnext hrest
    exact ih htop.mono (hnext.mono (by omega)) hrest
  | binary _ hfind hop _ happly ihleft ihright =>
    intro operands pending before r u htop hnext hrest
    have hop := (mem_ladder_iff _ _).mp hop
    refine ihleft htop (fun spelling' op' hop' => ?_) ?_
    · cases hfind.symm.trans hop'
      omega
    rw [List.singleton_append, Stacks.finish_binary hfind (htop _ (by omega))]
    refine ihright (yields_binary hop _ _ _) (hnext.mono (by omega)) ?_
    rw [List.singleton_append, Stacks.finish_reduce_ok_iff rfl fun spelling' op' hop' => ?_]
    · refine ⟨_, Stacks.reduce_binary_iff.mpr ⟨_, happly, rfl⟩, ?_⟩
      rw [Bool.and_assoc]
      exact hrest
    · have := hnext spelling' op' hop'
      omega
  | last _ ih =>
    intro operands pending before r u f column read hclosing hrest
    refine ih (yields_of_bracket rfl _ _) (nextBelow_of_separator
      (Cursor.passes_one_iff.mpr ⟨hclosing, rfl⟩) (by simp) _) ?_
    simpa using hrest
  | more _ hcomma _ ih ihmore =>
    intro operands pending before r u f column read hclosing hrest
    obtain ⟨hpeek, rfl⟩ := Cursor.passes_one_iff.mp hcomma
    refine ih (yields_of_bracket rfl _ _) (nextBelow_of_separator hcomma (by simp) _) ?_
    rw [List.singleton_append, Stacks.finish_comma_call hpeek]
    refine ihmore (read + 1) hclosing ?_
    simpa [Bool.and_assoc, Nat.add_comm, Nat.add_left_comm] using hrest

/-! ### From the evaluator to the grammar -/

/-- If an evaluation succeeds from a place where a value is expected, then a
phrase of these rungs begins there, and the evaluation succeeds from after it. -/
def Parses (ctx : Context) (allowance rungs : Nat) (c : Cursor) : Prop :=
  ∀ {operands pending before s r t}, Yields rungs pending →
    Stacks.finish (evaluateText ctx allowance) ctx c ⟨operands, pending, true, before⟩ s = .ok r t →
    ∃ o known d u, Derives ctx allowance (.level rungs) c s [o] known d u ∧
      d.rest.length < c.rest.length ∧ NextBelow rungs d ∧
      Stacks.finish (evaluateText ctx allowance) ctx d ⟨o :: operands, pending, false, before && known⟩ u =
        .ok r t

/-- Whether every text that `EVAL` gives a value is an expression as a whole. -/
def TextsParse (ctx : Context) (allowance : Nat) : Prop :=
  ∀ {text column s value known t}, evaluateText ctx allowance text column s = .ok (value, known) t →
    ∃ shallower o stop, allowance = shallower + 1 ∧ value = o.value ∧
      Derives ctx shallower .expression (Cursor.ofText text).skipBlanks s [o] known stop t ∧
      BinaryOp.find? stop.skipBlanks.rest = none ∧ stop.atStatementEnd = true

/-- The operators of the next rung after a phrase, taken from the left. -/
theorem parses_operators {ctx : Context} {allowance rungs : Nat} {c : Cursor} {s : State}
    {operands : List Operand} {pending : List Pending} {before : Bool} {r : Operand × Bool × Cursor}
    {t : State} (ih : ∀ d : Cursor, d.rest.length < c.rest.length → Parses ctx allowance rungs d)
    (htop : Yields (rungs + 1) pending) {o : Operand} {known : Bool} {d : Cursor} {u : State}
    (hd : Derives ctx allowance (.level (rungs + 1)) c s [o] known d u)
    (hlength : d.rest.length < c.rest.length) (hnext : NextBelow rungs d)
    (h : Stacks.finish (evaluateText ctx allowance) ctx d
      ⟨o :: operands, pending, false, before && known⟩ u = .ok r t) :
    ∃ o known d u, Derives ctx allowance (.level (rungs + 1)) c s [o] known d u ∧
      d.rest.length < c.rest.length ∧ NextBelow (rungs + 1) d ∧
      Stacks.finish (evaluateText ctx allowance) ctx d ⟨o :: operands, pending, false, before && known⟩ u =
        .ok r t := by
  by_cases hrung : NextBelow (rungs + 1) d
  · exact ⟨o, known, d, u, hd, hlength, hrung, h⟩
  · obtain ⟨spelling, op, hfind, hop⟩ : ∃ spelling op,
        BinaryOp.find? d.skipBlanks.rest = some (spelling, op) ∧ 8 ≤ op.precedence + (rungs + 1) := by
      simpa [NextBelow] using hrung
    have hop : op.precedence + rungs = 7 := by
      have := hnext spelling op hfind
      omega
    have hshorter : (d.skipBlanks.skip spelling.length).rest.length < d.rest.length :=
      Token.length_skip_lt false 0 (Token.operatorToken?_binary hfind) nofun
    rw [Stacks.finish_binary hfind (htop op (by omega))] at h
    obtain ⟨b, known', e, v, hb, hlength', hnext', h⟩ :=
      ih _ (by omega) (yields_binary hop spelling _ pending) h
    have hreduce : ∀ spelling' op', BinaryOp.find? e.skipBlanks.rest = some (spelling', op') →
        op'.precedence ≤ op.precedence := fun spelling' op' hop' => by
      have := hnext' spelling' op' hop'
      omega
    obtain ⟨_, hreduced, h⟩ := (Stacks.finish_reduce_ok_iff rfl hreduce).mp h
    obtain ⟨value, happly, rfl⟩ := Stacks.reduce_binary_iff.mp hreduced
    rw [Bool.and_assoc] at h
    exact parses_operators ih htop (hd.binary hfind ((mem_ladder_iff op rungs).mpr hop) hb happly)
      (by omega) hnext' h
termination_by d.rest.length

theorem parses_succ {ctx : Context} {allowance rungs : Nat} {c : Cursor}
    (ih : ∀ d : Cursor, d.rest.length < c.rest.length → Parses ctx allowance rungs d)
    (hc : Parses ctx allowance rungs c) : Parses ctx allowance (rungs + 1) c := by
  intro operands pending before s r t htop h
  obtain ⟨o, known, d, u, hd, hlength, hnext, h⟩ := hc htop.mono h
  exact parses_operators ih htop hd.tighter hlength hnext h

theorem parses_arguments {ctx : Context} {allowance : Nat} {c : Cursor}
    (ih : ∀ d : Cursor, d.rest.length ≤ c.rest.length →
      Parses ctx allowance BinaryOp.ladder.length d)
    {operands : List Operand} {pending : List Pending} {before : Bool} {f : Function}
    {read column : Nat} {r : Operand × Bool × Cursor} {s t : State}
    (h : Stacks.finish (evaluateText ctx allowance) ctx c
      ⟨operands, .call f read column :: pending, true, before⟩ s = .ok r t) :
    ∃ count args known d u, Derives ctx allowance (.arguments (count + 1)) c s args known d u ∧
      d.rest.length < c.rest.length ∧ d.skipBlanks.peek = some ')' ∧
      Stacks.finish (evaluateText ctx allowance) ctx d
        ⟨args.reverse ++ operands, .call f (read + count) column :: pending, false, before && known⟩ u =
        .ok r t := by
  obtain ⟨o, known, d, u, hd, hlength, hnext, h⟩ := ih c le_rfl (yields_of_bracket rfl _ _) h
  rcases Stacks.separator_of_finish rfl hnext.find?_eq_none h with hclosing | ⟨hcomma, -⟩
  · exact ⟨0, [o], known, d, u, hd.last, hlength, hclosing, h⟩
  · have hshorter := Cursor.length_skipBlanks_skip_lt hcomma Nat.one_pos
    rw [Stacks.finish_comma_call hcomma] at h
    obtain ⟨count, args, known', e, v, he, hlength', hclosing, h⟩ :=
      parses_arguments (fun e he => ih e (by omega)) h
    refine ⟨count + 1, o :: args, known && known', e, v,
      hd.more (Cursor.passes_one_iff.mpr ⟨hcomma, rfl⟩) he, by omega, hclosing, ?_⟩
    rw [List.reverse_cons, List.append_assoc, ← Bool.and_assoc, ← Nat.add_assoc, Nat.add_right_comm]
    exact h
termination_by c.rest.length

/-- A call whose arguments and bracket have been read. -/
theorem parses_call {ctx : Context} {allowance : Nat} (htexts : TextsParse ctx allowance)
    {c d e : Cursor} {f : Function} (hf : Function.find? c.skipBlanks.rest = some f)
    {args : List Operand} {known : Bool} {s u v : State}
    (hd : Derives ctx allowance (.arguments f.arity) (c.skipBlanks.skip (f.name.length + 1)) s args known
      d u)
    (hclose : d.Passes [')'] e) {value : Value} {sure : Bool}
    (h : callValue (evaluateText ctx allowance) ctx f (args.map Operand.value) c.skipBlanks.column u =
      .ok (value, sure) v) :
    Derives ctx allowance (.level 0) c s
      [⟨value, .mk .function f.name c.skipBlanks.column (args.map Operand.node)⟩] (known && sure) e v := by
  by_cases heval : f = .eval
  · subst heval
    obtain ⟨⟨argument, node⟩, rfl⟩ := List.length_eq_one_iff.mp hd.length_arguments.1
    rw [callValue_eval] at h
    cases argument with
    | num n => cases h
    | str text =>
      obtain ⟨shallower, o, stop, rfl, rfl, ho, hnext, hend⟩ := htexts h
      exact .eval hf hd hclose ho hnext hend
  · rw [callValue_of_ne heval] at h
    split at h
    · rename_i happly
      cases h
      rw [Bool.and_true]
      exact .call heval hf hd hclose happly
    · cases h

theorem parses_zero {ctx : Context} {allowance : Nat} (htexts : TextsParse ctx allowance) {c : Cursor}
    (ih : ∀ d : Cursor, d.rest.length < c.rest.length →
      ∀ rungs ≤ BinaryOp.ladder.length, Parses ctx allowance rungs d) :
    Parses ctx allowance 0 c := by
  intro operands pending before s r t _ h
  rcases Stacks.value_of_finish h with hopen | ⟨op, hsign⟩ | ⟨f, hf⟩ | ⟨a, column, n, htoken⟩
  · have hshorter := Cursor.length_skipBlanks_skip_lt hopen Nat.one_pos
    rw [Stacks.finish_opening hopen] at h
    obtain ⟨o, known, d, u, hd, hlength, hnext, h⟩ :=
      ih _ hshorter _ le_rfl (yields_of_bracket rfl _ _) h
    rcases Stacks.separator_of_finish rfl hnext.find?_eq_none h with hclosing | ⟨-, _, _, _, hcall⟩
    · have hshorter' := Cursor.length_skipBlanks_skip_lt hclosing Nat.one_pos
      rw [Stacks.finish_closing_bracket hclosing] at h
      exact ⟨o, known, _, u, .bracketed (Cursor.passes_one_iff.mpr ⟨hopen, rfl⟩) hd
        (Cursor.passes_one_iff.mpr ⟨hclosing, rfl⟩), by omega, nextBelow_zero _, h⟩
    · cases hcall
  · have hshorter := Cursor.length_skipBlanks_skip_lt hsign Nat.one_pos
    rw [Stacks.finish_unary hsign] at h
    obtain ⟨a, known, d, u, hd, hlength, -, h⟩ := ih _ hshorter 0 (Nat.zero_le _) (yields_zero _) h
    obtain ⟨_, hreduced, h⟩ :=
      (Stacks.finish_reduce_ok_iff rfl fun _ op _ => binary_le_unary op _).mp h
    obtain ⟨value, happly, rfl⟩ := Stacks.reduce_unary_iff.mp hreduced
    exact ⟨_, known, d, u, .signed (Cursor.passes_one_iff.mpr ⟨hsign, rfl⟩) hd happly, by omega,
      nextBelow_zero _, h⟩
  · have hshorter := Token.length_skip_lt true 0 (Token.valueToken?_call hf) nofun
    rw [Stacks.finish_call hf] at h
    obtain ⟨count, args, known, d, u, hd, hlength, hclosing, h⟩ :=
      parses_arguments (fun e he => ih e (by omega) _ le_rfl) h
    have hshorter' := Cursor.length_skipBlanks_skip_lt hclosing Nat.one_pos
    have harity : 0 + count + 1 = f.arity := by
      by_contra harity
      rw [Stacks.finish_closing_call hclosing, if_pos harity] at h
      exact Eval.throw_ne_ok h
    rw [Nat.zero_add] at harity h
    rw [harity] at hd
    rw [Stacks.finish_closing_taken hclosing harity hd.length_arguments.1, Eval.bind_ok_iff] at h
    obtain ⟨⟨value, sure⟩, v, hvalue, h⟩ := h
    simp only [Bool.and_assoc] at h
    exact ⟨_, _, _, v, parses_call htexts hf hd (Cursor.passes_one_iff.mpr ⟨hclosing, rfl⟩) hvalue,
      by omega, nextBelow_zero _, h⟩
  · rw [Stacks.finish_atom htoken, Eval.bind_ok_iff] at h
    obtain ⟨⟨o, known⟩, u, hatom, h⟩ := h
    exact ⟨o, known, _, u, .atom htoken hatom, Token.length_skip_lt true 0 htoken nofun,
      nextBelow_zero _, h⟩

theorem parses {ctx : Context} {allowance : Nat} (htexts : TextsParse ctx allowance) (c : Cursor) :
    ∀ rungs ≤ BinaryOp.ladder.length, Parses ctx allowance rungs c
  | 0, _ => parses_zero htexts fun d _ => parses htexts d
  | rungs + 1, hle =>
    parses_succ (fun d _ => parses htexts d rungs (by omega)) (parses htexts c rungs (by omega))
termination_by rungs => (c.rest.length, rungs)

/-- A whole expression, for an evaluation that starts with it. -/
theorem exists_derives_of_finish {ctx : Context} {allowance : Nat} (htexts : TextsParse ctx allowance)
    {c stop : Cursor} {s t : State} {o : Operand} {known : Bool}
    (h : Stacks.finish (evaluateText ctx allowance) ctx c Stacks.start s = .ok (o, known, stop) t) :
    ∃ d, Derives ctx allowance .expression c s [o] known d t ∧ d.rest.length < c.rest.length ∧
      BinaryOp.find? d.skipBlanks.rest = none ∧ stop = d.skipBlanks := by
  obtain ⟨o', known', d, u, hd, hlength, hnext, h⟩ := parses htexts c _ le_rfl (yields_nil _) h
  rw [Stacks.finish_end o' hnext.find?_eq_none] at h
  obtain ⟨h, rfl⟩ := Eval.pure_ok_iff.mp h
  cases h
  exact ⟨d, hd, hlength, hnext.find?_eq_none, rfl⟩

theorem textsParse (ctx : Context) : ∀ allowance, TextsParse ctx allowance
  | 0 => fun h => by cases h
  | allowance + 1 => fun h => by
    obtain ⟨o, stop, hfinish, hend, hvalue⟩ := evaluateText_ok_iff.mp h
    obtain ⟨d, hd, -, hnext, rfl⟩ := exists_derives_of_finish (textsParse ctx allowance) hfinish
    exact ⟨allowance, o, d, rfl, hvalue, hd, hnext, (Cursor.atStatementEnd_skipBlanks d).symm.trans hend⟩

/-- The evaluator gives a result exactly if the grammar does for the longest
expression, and the same one. -/
theorem evaluate_iff_denotes (ctx : Context) (allowance : Nat) (c : Cursor) (s : State) (e : Evaluated)
    (t : State) : evaluate ctx allowance c s = .ok e t ↔ Denotes ctx allowance c.skipBlanks s e t := by
  rw [evaluate, evaluateWith_ok_iff]
  constructor
  · rintro ⟨o, hfinish, hvalue, hnode⟩
    obtain ⟨d, hd, -, hnext, hstop⟩ := exists_derives_of_finish (textsParse ctx allowance) hfinish
    exact ⟨o, d, hd, hnext, hstop, hvalue, hnode⟩
  · rintro ⟨o, d, hd, hnext, hstop, hvalue, hnode⟩
    refine ⟨o, ?_, hvalue, hnode⟩
    refine hd.continues (yields_nil _) (fun spelling op hop => ?_) ?_
    · rw [hnext] at hop
      cases hop
    · rw [hstop]
      exact congrFun (Stacks.finish_end o hnext) t

theorem evaluate_iff_denotes_brackets :
    ∃ node stop t, Denotes default 0 (Cursor.ofText "7-(1+2)*-4-1").skipBlanks default ⟨.num 18, node, true, stop⟩ t := by
  have hreading : readingOf? (evaluate default 0 (.ofText "7-(1+2)*-4-1") default) = some (.num 18, true) := by
    decide +kernel
  obtain ⟨node, stop, t, hrun⟩ := exists_of_readingOf? hreading
  exact ⟨node, stop, t, (evaluate_iff_denotes default 0 _ default _ t).mp hrun⟩

/-! ### Where an expression ends -/

theorem Derives.reaches {ctx : Context} {allowance : Nat} {phrase : Phrase} {c d : Cursor}
    {s t : State} {args : List Operand} {known : Bool}
    (h : Derives ctx allowance phrase c s args known d t) : c.Reaches d := by
  have hpasses {signs : List Char} {c d : Cursor} (h : c.Passes signs d) : c.Reaches d := by
    rw [h.2]
    exact c.reaches_skipBlanks.trans (Cursor.reaches_skip _ _)
  have hskip (c : Cursor) (n : Nat) : c.Reaches (c.skipBlanks.skip n) :=
    c.reaches_skipBlanks.trans (Cursor.reaches_skip _ _)
  induction h with
  | atom => exact hskip _ _
  | signed hpass _ _ ih => exact (hpasses hpass).trans ih
  | bracketed hopen _ hclose ih => exact ((hpasses hopen).trans ih).trans (hpasses hclose)
  | call _ _ _ hclose _ ih => exact ((hskip _ _).trans ih).trans (hpasses hclose)
  | eval _ _ hclose _ _ _ ih _ => exact ((hskip _ _).trans ih).trans (hpasses hclose)
  | tighter _ ih => exact ih
  | binary _ _ _ _ _ ihleft ihright => exact (ihleft.trans (hskip _ _)).trans ihright
  | last _ ih => exact ih
  | more _ hcomma _ ih ihmore => exact (ih.trans (hpasses hcomma)).trans ihmore

/-- An expression takes at least one character. -/
theorem evaluate_reaches {ctx : Context} {allowance : Nat} {c : Cursor} {s t : State} {e : Evaluated}
    (h : evaluate ctx allowance c s = .ok e t) :
    c.Reaches e.stop ∧ e.stop.rest.length < c.rest.length := by
  rw [evaluate, evaluateWith_ok_iff] at h
  obtain ⟨o, hfinish, -, -⟩ := h
  obtain ⟨d, hd, hlength, -, hstop⟩ := exists_derives_of_finish (textsParse ctx allowance) hfinish
  have hle := c.length_skipBlanks_le
  have hle' := d.length_skipBlanks_le
  rw [hstop]
  exact ⟨(c.reaches_skipBlanks.trans hd.reaches).trans d.reaches_skipBlanks, by omega⟩

end Expr
end Asm6502
