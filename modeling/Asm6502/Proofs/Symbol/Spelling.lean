/-
# Places that spell a symbol

Where a symbol is defined and where it is used is noted by file, line and column.
The line of the file should spell the symbol there. It does wherever the column is
one of the line itself. The texts of `EVAL` and `ASM` have columns of their own, so
what is noted while such a text is executed may stand anywhere, but the line spells
`EVAL(` or `ASM` then.

Key definitions: `holdsText`, `Spells`, `Cursor.IsOf`, `IsSpelled`,
`SymbolTable.IsTraced`.
Key theorems: `Token.isOf_of_mem_scanFrom`, `SymbolTable.IsTraced.addReference`,
`Expr.keeps_evaluate`.
-/
import Mathlib.Data.List.Infix
import Asm6502.Proofs.Macro.Arguments
import Asm6502.Proofs.Source

namespace Asm6502

/-! ### Lines -/

/-- Whether an `EVAL`, or an `ASM` with something behind it, starts here. -/
def startsText (cs : List Char) : Bool :=
  startsWith "EVAL(".toList cs || startsWith "ASM".toList cs && (cs.drop 3).head?.any fun x => !isNameChar x

/-- Whether an `EVAL` or an `ASM` is spelled anywhere on a line. -/
def holdsText (line : List Char) : Bool := line.tails.any startsText

/-- Whether a line spells a name at a column. -/
def Spells (line : List Char) (name : String) (column : Nat) : Prop :=
  ∃ past rest, line = past ++ (name.toList ++ rest) ∧ column = byteLength past

theorem holdsText_iff {line : List Char} :
    holdsText line = true ↔ ∃ past rest, line = past ++ rest ∧ startsText rest = true := by
  simp only [holdsText, List.any_eq_true, List.mem_tails]
  constructor
  · rintro ⟨rest, ⟨past, rfl⟩, hrest⟩
    exact ⟨past, rest, rfl, hrest⟩
  · rintro ⟨past, rest, rfl, hrest⟩
    exact ⟨rest, List.suffix_append past rest, hrest⟩

theorem length_of_startsWith {word cs : List Char} (h : startsWith word cs = true) : word.length ≤ cs.length := by
  unfold startsWith at h
  rw [← beq_iff_eq.mp h, List.length_map, List.length_take]
  exact Nat.min_le_right _ _

theorem startsWith_append_more {word cs : List Char} (h : startsWith word cs = true) (more : List Char) :
    startsWith word (cs ++ more) = true := by
  have hlength := length_of_startsWith h
  unfold startsWith at *
  rwa [List.take_append_of_le_length hlength]

/-- What goes on behind a text changes nothing about its start. -/
theorem startsText_append {cs : List Char} (h : startsText cs = true) (more : List Char) :
    startsText (cs ++ more) = true := by
  rcases Bool.or_eq_true_iff.mp h with h | h
  · exact Bool.or_eq_true_iff.mpr (Or.inl (startsWith_append_more h more))
  · obtain ⟨hword, hnext⟩ := Bool.and_eq_true_iff.mp h
    refine Bool.or_eq_true_iff.mpr (Or.inr (Bool.and_eq_true_iff.mpr ⟨startsWith_append_more hword more, ?_⟩))
    have hlength : 3 ≤ cs.length := length_of_startsWith hword
    rw [List.drop_append_of_le_length hlength]
    cases hrest : cs.drop 3 with
    | nil =>
      rw [hrest] at hnext
      cases hnext
    | cons x rest =>
      rw [hrest] at hnext
      exact hnext

theorem holdsText_mono {line whole : List Char} (hwhole : line <+: whole) (h : holdsText line = true) :
    holdsText whole = true := by
  obtain ⟨past, rest, rfl, hrest⟩ := holdsText_iff.mp h
  obtain ⟨more, rfl⟩ := hwhole
  exact holdsText_iff.mpr ⟨past, rest ++ more, List.append_assoc _ _ _, startsText_append hrest more⟩

theorem Spells.mono {line whole : List Char} {name : String} {column : Nat} (h : Spells line name column)
    (hwhole : line <+: whole) : Spells whole name column := by
  obtain ⟨past, rest, rfl, hcolumn⟩ := h
  obtain ⟨more, rfl⟩ := hwhole
  exact ⟨past, rest ++ more, by simp only [List.append_assoc], hcolumn⟩

/-- A cursor on a line, unless the line holds a text. -/
def Cursor.IsOf (line : List Char) (c : Cursor) : Prop := holdsText line = true ∨ ∃ past, c.Stands line past

namespace Cursor

variable {line : List Char} {c d : Cursor}

theorem IsOf.reaches (h : c.IsOf line) (hd : c.Reaches d) : d.IsOf line :=
  h.imp_right fun ⟨_, hpast⟩ => hd.stands hpast

theorem IsOf.skip (h : c.IsOf line) (n : Nat) : (c.skip n).IsOf line := h.reaches (c.reaches_skip n)

theorem IsOf.skipBlanks (h : c.IsOf line) : c.skipBlanks.IsOf line := h.reaches c.reaches_skipBlanks

/-- A line on which a text starts holds one. -/
theorem IsOf.holdsText (h : c.IsOf line) (hstarts : startsText c.rest = true) : Asm6502.holdsText line = true := by
  rcases h with h | ⟨past, hpast⟩
  · exact h
  · exact holdsText_iff.mpr ⟨past, c.rest, hpast.line_eq, hstarts⟩

/-- A name that is read is spelled where it is read. -/
theorem IsOf.spells (h : c.IsOf line) : Spells line c.name.1 c.column ∨ Asm6502.holdsText line = true := by
  rcases h with h | ⟨past, hpast⟩
  · exact Or.inr h
  · refine Or.inl ⟨past, c.rest.drop (nameLength c.rest), ?_, hpast.column_eq⟩
    rw [Cursor.name, String.toList_ofList, List.take_append_drop]
    exact hpast.line_eq

end Cursor

/-! ### Positions -/

/-- Whether a line stands in a file, perhaps without its end. -/
def IsPart (library : Library) (files : Array Path) (file number : Nat) (line : List Char) : Prop :=
  ∃ whole, IsLine library files file number whole ∧ line <+: whole

/-- Whether a position is right for a name: its line spells the name at its column, or
holds a text. -/
def IsSpelled (library : Library) (files : Array Path) (name : String) (p : Position) : Prop :=
  ∃ line, IsLine library files p.file p.line line ∧ (Spells line name p.column ∨ holdsText line = true)

section
variable {library : Library} {files files' : Array Path}

theorem IsSpelled.mono {name : String} {p : Position} (h : IsSpelled library files name p)
    (hgrow : FilesGrow files files') : IsSpelled library files' name p := by
  obtain ⟨line, hline, h⟩ := h
  exact ⟨line, hline.mono hgrow, h⟩

theorem IsPart.isSpelled {p : Position} {line : List Char} {name : String}
    (h : IsPart library files p.file p.line line) (hspells : Spells line name p.column ∨ holdsText line = true) :
    IsSpelled library files name p := by
  obtain ⟨whole, hline, hwhole⟩ := h
  exact ⟨whole, hline, hspells.imp (·.mono hwhole) (holdsText_mono hwhole)⟩

/-- Whether all that is noted of symbols is right, each use once. -/
structure Symbol.IsTraced (library : Library) (files : Array Path) (name : String) (symbol : Symbol) : Prop where
  definedAt : ∀ p, symbol.definedAt = some p → IsSpelled library files name p
  references : ∀ p ∈ symbol.references, IsSpelled library files name p
  nodup : symbol.references.Nodup

/-- Whether all that a table notes is right. -/
def SymbolTable.IsTraced (library : Library) (files : Array Path) (t : SymbolTable) : Prop :=
  ∀ full symbol, t.get? full = some symbol → symbol.IsTraced library files (baseName full)

namespace SymbolTable

variable {t : SymbolTable}

theorem IsTraced.mono (h : t.IsTraced library files) (hgrow : FilesGrow files files') :
    t.IsTraced library files' := by
  intro full symbol hsymbol
  have hs := h full symbol hsymbol
  exact ⟨fun p hp => (hs.definedAt p hp).mono hgrow, fun p hp => (hs.references p hp).mono hgrow, hs.nodup⟩

/-- A change of one symbol that keeps what is noted of it right. -/
theorem IsTraced.update (h : t.IsTraced library files) (name : String) {f : Symbol → Symbol}
    (hf : ∀ symbol, symbol.IsTraced library files (baseName name) →
      (f symbol).IsTraced library files (baseName name)) : (t.update name f).IsTraced library files := by
  intro full symbol hsymbol
  rw [get?_update] at hsymbol
  split_ifs at hsymbol with hname
  · obtain ⟨old, hold, rfl⟩ := Option.map_eq_some_iff.mp hsymbol
    subst hname
    exact hf old (h _ old hold)
  · exact h full symbol hsymbol

theorem IsTraced.change (h : t.IsTraced library files) (name : String) (value : Value) :
    (t.change name value).IsTraced library files :=
  h.update name fun _ hs => ⟨hs.definedAt, hs.references, hs.nodup⟩

theorem IsTraced.erase (h : t.IsTraced library files) (name : String) : (t.erase name).IsTraced library files := by
  intro full symbol hsymbol
  rw [get?_erase] at hsymbol
  split_ifs at hsymbol
  exact h full symbol hsymbol

theorem IsTraced.addReference (h : t.IsTraced library files) {full : String} {p : Position}
    (hp : IsSpelled library files (baseName full) p) : (t.addReference full p).IsTraced library files := by
  refine h.update full fun symbol hs => ?_
  split_ifs with hseen
  · exact hs
  · refine ⟨hs.definedAt, fun q hq => ?_, ?_⟩
    · rcases List.mem_append.mp hq with hq | hq
      · exact hs.references q hq
      · rwa [List.mem_singleton.mp hq]
    · refine List.nodup_append.mpr ⟨hs.nodup, by simp, fun q hq q' hq' hsame => hseen ?_⟩
      rw [List.mem_singleton.mp hq'] at hsame
      exact List.contains_iff_mem.mpr (hsame ▸ hq)

theorem IsTraced.add? (h : t.IsTraced library files) {full : String} {value : Value} {isLabel : Bool}
    {definedAt : Option Position} {u : SymbolTable}
    (hdefined : ∀ p, definedAt = some p → IsSpelled library files (baseName full) p)
    (hadd : t.add? full value isLabel definedAt = some u) : u.IsTraced library files := by
  intro other symbol hsymbol
  rw [(get?_add? hadd other).2] at hsymbol
  split_ifs at hsymbol with hname
  · obtain rfl := Option.some.inj hsymbol
    subst hname
    exact ⟨hdefined, fun p hp => absurd hp List.not_mem_nil, List.nodup_nil⟩
  · exact h other symbol hsymbol

theorem IsTraced.add (h : t.IsTraced library files) {full : String} {value : Value} {isLabel : Bool}
    {definedAt : Option Position} (hdefined : ∀ p, definedAt = some p → IsSpelled library files (baseName full) p) :
    (t.add full value isLabel definedAt).IsTraced library files := by
  unfold SymbolTable.add
  cases hadd : t.add? full value isLabel definedAt with
  | none => exact h
  | some u => exact h.add? hdefined hadd

end SymbolTable
end

/-! ### Evaluations -/

/-- Whether an evaluation keeps something of the state it changes, with what it
returns. -/
def Eval.Keeps {α : Type} (I : Expr.State → Prop) (m : Eval α) (Q : α → Prop) : Prop :=
  ∀ s, I s → match m s with
    | .ok a t => I t ∧ Q a
    | .error _ t => I t

namespace Eval

variable {α β : Type} {I : Expr.State → Prop} {Q : α → Prop}

theorem keeps_pure {a : α} (h : Q a) : Keeps I (pure a) Q := fun _ hs => ⟨hs, h⟩

theorem keeps_throw (problem : Problem) : Keeps I (throw problem : Eval α) Q := fun _ hs => hs

theorem keeps_ofExcept {x : Except Problem α} (h : ∀ a, x = .ok a → Q a) : Keeps I (ofExcept x) Q := by
  cases x with
  | ok a => exact keeps_pure (h a rfl)
  | error problem => exact keeps_throw problem

theorem keeps_bind {x : Eval β} {R : β → Prop} {f : β → Eval α} (hx : Keeps I x R)
    (hf : ∀ b, R b → Keeps I (f b) Q) : Keeps I (x >>= f) Q := by
  intro s hs
  have hxs := hx s hs
  change match EStateM.bind x f s with
    | .ok a t => I t ∧ Q a
    | .error _ t => I t
  unfold EStateM.bind
  cases hrun : x s with
  | error problem t =>
    rw [hrun] at hxs
    exact hxs
  | ok b t =>
    rw [hrun] at hxs
    exact hf b hxs.2 t hxs.1

theorem keeps_relocate {x : Eval α} (column : Nat) (hx : Keeps I x Q) : Keeps I (relocate column x) Q := by
  intro s hs
  have hxs := hx s hs
  unfold relocate
  cases hrun : x s with
  | error problem t =>
    rw [hrun] at hxs
    exact hxs
  | ok a t =>
    rw [hrun] at hxs
    exact hxs

end Eval

/-- What a token of a line says about the line. -/
def Token.IsOf (line : List Char) : Token → Prop
  | .atom (.name name) column => IsPlain name ∧ (Spells line name column ∨ holdsText line = true)
  | .call .eval _ => holdsText line = true
  | _ => True

namespace Token

theorem isOf_of_valueToken? {line : List Char} {c : Cursor} (hc : c.IsOf line) {token : Token} {n : Nat}
    (h : valueToken? c = some (token, n)) : token.IsOf line := by
  rcases valueToken?_cases h with ⟨rfl, -⟩ | ⟨op, rfl, -⟩ | ⟨f, rfl, -, hfind⟩ | ⟨a, column, rfl⟩ | ⟨problem, rfl⟩
  · trivial
  · trivial
  · cases f with
    | eval =>
      obtain ⟨⟨f, name, count⟩, hentry, rfl⟩ := Option.map_eq_some_iff.mp hfind
      have hname : ∀ x ∈ Function.table, x.1 = .eval → x.2.1.toList ++ ['('] = "EVAL(".toList := by decide
      have hspelled : startsWith (name.toList ++ ['(']) c.rest = true :=
        by
        simpa using List.find?_some hentry
      have hstarts : startsText c.rest = true := by
        rw [hname _ (List.mem_of_find?_eq_some hentry) rfl] at hspelled
        exact Bool.or_eq_true_iff.mpr (Or.inl hspelled)
      exact hc.holdsText hstarts
    | _ => trivial
  · cases a with
    | name name =>
      obtain ⟨rfl, hname⟩ := place_of_atom h
      obtain ⟨-, rfl⟩ := hname name rfl
      exact ⟨isPlain_take_nameLength c.rest, hc.spells⟩
    | _ => trivial
  · trivial

/-- The tokens of a line say about it what they should. -/
theorem isOf_of_mem_scanFrom {line : List Char} : ∀ (steps : Nat) {value : Bool} {depth : Nat} {c : Cursor},
    c.IsOf line → ∀ token ∈ (scanFrom steps value depth c).1, token.IsOf line
  | 0, _, _, _, _, _, h => by cases h
  | steps + 1, value, depth, c, hc, token, h => by
    have hnext {token : Token} {n : Nat} (h : next? value depth c.skipBlanks = some (token, n)) : token.IsOf line := by
      unfold next? at h
      split_ifs at h
      · exact isOf_of_valueToken? hc.skipBlanks h
      · rcases operatorToken?_cases h with ⟨rfl, -⟩ | ⟨rfl, -⟩ | ⟨spelling, op, rfl, -⟩ <;> trivial
    unfold scanFrom at h
    dsimp only at h
    split at h
    · cases h
    · obtain rfl := List.mem_singleton.mp h
      trivial
    · rename_i next n _ hfound
      rcases List.mem_cons.mp h with rfl | h
      · exact hnext hfound
      · exact isOf_of_mem_scanFrom steps (hc.skipBlanks.skip n) token h

end Token

/-- Whether an `EVAL` waits on a line that holds one. -/
def Pending.IsOf (line : List Char) : Pending → Prop
  | .call .eval _ _ => holdsText line = true
  | _ => True

theorem mem_of_collapse {ready : Pending → Bool} {pending pending' : List Pending} {operands operands' : List Operand}
    (h : collapse ready pending operands = .ok (pending', operands')) : ∀ p ∈ pending', p ∈ pending := by
  induction pending generalizing operands with
  | nil =>
    cases h
    exact fun p hp => hp
  | cons p pending ih =>
    unfold collapse at h
    split_ifs at h
    · cases hreduce : p.reduce operands with
      | error problem =>
        rw [hreduce] at h
        cases h
      | ok reduced =>
        rw [hreduce] at h
        exact fun q hq => List.mem_cons_of_mem _ (ih h q hq)
    · cases h
      exact fun q hq => hq

namespace Expr

variable {library : Library} {files : Array Path} {line : List Char} {ctx : Context} {inner : TextEvaluator}

/-- The state of an evaluation in which all that is noted of symbols is right. -/
def State.IsTraced (library : Library) (files : Array Path) (s : State) : Prop := s.symbols.IsTraced library files

/-- Whether `EVAL` keeps what is noted right on a line that holds it. -/
def KeepsTexts (library : Library) (files : Array Path) (line : List Char) (inner : TextEvaluator) : Prop :=
  holdsText line = true → ∀ text column, Eval.Keeps (State.IsTraced library files) (inner text column) fun _ => True

/-- A symbol is noted under the name that is spelled, whatever its scope. -/
theorem baseName_of_visibleName? {symbols : SymbolTable} {name full : String} {frames : List Frame}
    (hname : IsPlain name) (h : visibleName? symbols name frames = some full) : baseName full = name := by
  obtain ⟨outer, -, rfl⟩ := exists_suffix_of_visibleName? h
  exact baseName_fullName hname outer

/-- A symbol leaves everything as it is, or it is looked up and the lookup noted. -/
theorem symbolValue_cases (ctx : Context) (name : String) (column : Nat) (s : State) :
    (∃ x, symbolValue ctx name column s = .ok x s) ∨ (∃ p, symbolValue ctx name column s = .error p s) ∨
      ∃ value note, symbolValue ctx name column s = .ok (value, true)
        { s with
          symbols := (lookUp ctx.pass s.symbols ctx.frames name ⟨ctx.file, ctx.line, column⟩).2
          history := note :: s.history } := by
  unfold symbolValue
  by_cases hcounter : name = "P%"
  · exact Or.inl ⟨_, if_pos hcounter⟩
  rw [if_neg hcounter]
  dsimp only
  split
  · exact Or.inr (Or.inr ⟨_, _, rfl⟩)
  · by_cases hpass : ctx.pass = .first
    · exact Or.inl ⟨_, if_pos hpass⟩
    · exact Or.inr (Or.inl ⟨_, if_neg hpass⟩)

theorem keeps_symbolValue (hline : IsPart library files ctx.file ctx.line line) {name : String} {column : Nat}
    (hname : IsPlain name) (hspells : Spells line name column ∨ holdsText line = true) :
    Eval.Keeps (State.IsTraced library files) (symbolValue ctx name column) fun _ => True := by
  intro s hs
  have hlooked : (lookUp ctx.pass s.symbols ctx.frames name ⟨ctx.file, ctx.line, column⟩).2.IsTraced library files := by
    unfold lookUp
    cases hfull : visibleName? s.symbols name ctx.frames with
    | none => exact hs
    | some full =>
      dsimp only
      split_ifs
      · refine SymbolTable.IsTraced.addReference hs (IsPart.isSpelled hline ?_)
        rw [baseName_of_visibleName? hname hfull]
        exact hspells
      · exact hs
  rcases symbolValue_cases ctx name column s with ⟨x, h⟩ | ⟨p, h⟩ | ⟨value, note, h⟩
  · rw [h]
    exact ⟨hs, trivial⟩
  · rw [h]
    exact hs
  · rw [h]
    exact ⟨hlooked, trivial⟩

theorem keeps_callValue (hinner : KeepsTexts library files line inner) {f : Function} {arguments : List Value}
    {column : Nat} (hf : f = .eval → holdsText line = true) :
    Eval.Keeps (State.IsTraced library files) (callValue inner ctx f arguments column) fun _ => True := by
  by_cases heval : f = .eval
  · rw [heval, callValue_eval]
    split
    · exact hinner (hf heval) _ _
    · exact Eval.keeps_throw _
  · intro s hs
    rw [callValue_of_ne heval]
    cases f.apply ctx.clock arguments s.random with
    | ok x => exact ⟨hs, trivial⟩
    | error fault => exact hs

theorem keeps_close (hinner : KeepsTexts library files line inner) {known : Bool} {pending : List Pending}
    {operands : List Operand} (hpending : ∀ p ∈ pending, p.IsOf line) :
    Eval.Keeps (State.IsTraced library files) (Stacks.close inner ctx known pending operands)
      fun st => ∀ p ∈ st.pending, p.IsOf line := by
  unfold Stacks.close
  split
  · rename_i f arguments column pending
    have hrest : ∀ p ∈ pending, p.IsOf line := fun p hp => hpending p (List.mem_cons_of_mem _ hp)
    dsimp only
    split
    · exact Eval.keeps_throw _
    split
    · exact Eval.keeps_throw _
    refine Eval.keeps_bind (keeps_callValue hinner fun hf => ?_) fun _ _ => Eval.keeps_pure hrest
    subst hf
    exact hpending _ List.mem_cons_self
  · exact Eval.keeps_pure fun p hp => hpending p (List.mem_cons_of_mem _ hp)
  · exact Eval.keeps_pure hpending

theorem keeps_nextArgument {known : Bool} {column : Nat} {pending : List Pending} {operands : List Operand}
    (hpending : ∀ p ∈ pending, p.IsOf line) :
    Eval.Keeps (State.IsTraced library files) (Stacks.nextArgument known column pending operands)
      fun st => ∀ p ∈ st.pending, p.IsOf line := by
  unfold Stacks.nextArgument
  split
  · rename_i f arguments start pending
    refine Eval.keeps_pure fun p hp => ?_
    rcases List.mem_cons.mp hp with rfl | hp
    · have hcall : (Pending.call f arguments start).IsOf line := hpending _ List.mem_cons_self
      cases f with
      | eval => exact hcall
      | _ => trivial
    · exact hpending p (List.mem_cons_of_mem _ hp)
  · exact Eval.keeps_throw _

theorem keeps_take (hline : IsPart library files ctx.file ctx.line line) (hinner : KeepsTexts library files line inner)
    {st : Stacks} (hst : ∀ p ∈ st.pending, p.IsOf line) {token : Token} (htoken : token.IsOf line) :
    Eval.Keeps (State.IsTraced library files) (Stacks.take inner ctx st token) fun st' => ∀ p ∈ st'.pending, p.IsOf line := by
  have hpush {p : Pending} (hp : p.IsOf line) : ∀ q ∈ p :: st.pending, q.IsOf line := by
    rintro q (_ | ⟨_, hq⟩)
    · exact hp
    · exact hst q hq
  have hcollapse {ready : Pending → Bool} {x : List Pending × List Operand}
      (h : collapse ready st.pending st.operands = .ok x) : ∀ p ∈ x.1, p.IsOf line :=
    fun p hp => hst p (mem_of_collapse h p hp)
  cases token with
  | opening column => exact Eval.keeps_pure (hpush trivial)
  | unary op column => exact Eval.keeps_pure (hpush trivial)
  | call f column =>
    refine Eval.keeps_pure (hpush ?_)
    cases f with
    | eval => exact htoken
    | _ => trivial
  | atom a column =>
    refine Eval.keeps_bind (R := fun _ => True) ?_ fun _ _ => Eval.keeps_pure hst
    cases a with
    | name name => exact Eval.keeps_bind (keeps_symbolValue hline htoken.1 htoken.2) fun _ _ => Eval.keeps_pure trivial
    | _ => exact Eval.keeps_pure trivial
  | closing column =>
    exact Eval.keeps_bind (Eval.keeps_ofExcept fun _ h => hcollapse h) fun x hx => keeps_close hinner hx
  | comma column =>
    exact Eval.keeps_bind (Eval.keeps_ofExcept fun _ h => hcollapse h) fun x hx => keeps_nextArgument hx
  | binary op spelling column =>
    refine Eval.keeps_bind (Eval.keeps_ofExcept fun _ h => hcollapse h) fun x hx => Eval.keeps_pure ?_
    rintro q (_ | ⟨_, hq⟩)
    · trivial
    · exact hx q hq
  | bad problem => exact Eval.keeps_throw _

theorem keeps_takeAll (hline : IsPart library files ctx.file ctx.line line)
    (hinner : KeepsTexts library files line inner) : ∀ (tokens : List Token) {st : Stacks},
    (∀ p ∈ st.pending, p.IsOf line) → (∀ token ∈ tokens, token.IsOf line) →
    Eval.Keeps (State.IsTraced library files) (tokens.foldlM (Stacks.take inner ctx) st) fun _ => True
  | [], _, _, _ => Eval.keeps_pure trivial
  | token :: tokens, _, hst, htokens => by
    rw [List.foldlM_cons]
    exact Eval.keeps_bind (keeps_take hline hinner hst (htokens token List.mem_cons_self)) fun st hst =>
      keeps_takeAll hline hinner tokens hst fun t ht => htokens t (List.mem_cons_of_mem _ ht)

theorem keeps_evaluateWith (hline : IsPart library files ctx.file ctx.line line)
    (hinner : KeepsTexts library files line inner) {c : Cursor} (hc : c.IsOf line) :
    Eval.Keeps (State.IsTraced library files) (evaluateWith inner ctx c) fun _ => True := by
  refine Eval.keeps_bind (keeps_takeAll hline hinner _ (fun p hp => by cases hp)
    (Token.isOf_of_mem_scanFrom _ hc.skipBlanks)) fun _ _ => ?_
  exact Eval.keeps_bind (R := fun _ => True) (Eval.keeps_ofExcept fun _ _ => trivial) fun _ _ => Eval.keeps_pure trivial

/-- On a line that holds a text, no column is wrong. -/
theorem keeps_evaluateText (hline : IsPart library files ctx.file ctx.line line) :
    ∀ allowance, KeepsTexts library files line (evaluateText ctx allowance)
  | 0 => fun _ _ _ => Eval.keeps_throw _
  | allowance + 1 => fun hholds text column => by
    refine Eval.keeps_relocate column ?_
    refine Eval.keeps_bind (keeps_evaluateWith hline (keeps_evaluateText hline allowance) (Or.inl hholds)) fun e _ => ?_
    split
    · exact Eval.keeps_throw _
    · exact Eval.keeps_pure trivial

/-- **What an expression notes is right,** also if its evaluation stops. -/
theorem keeps_evaluate (hline : IsPart library files ctx.file ctx.line line) {c : Cursor} (hc : c.IsOf line)
    (allowance : Nat) : Eval.Keeps (State.IsTraced library files) (evaluate ctx allowance c) fun _ => True :=
  keeps_evaluateWith hline (keeps_evaluateText hline allowance) hc

end Expr
end Asm6502
