/-
# What stands under a column of a line

The trees of a line are laid out in a row, so the search for a column ends at an
innermost construct. It starts at or before the column, and none of those right
inside it does. Deeper inside there may be one that does, in the operand before an
operator: the search leaves out an operator that starts after the column, with all
that it has.

So a symbol is found at its own column, unless it stands in the operand before an
operator or in the address of an operand like `(zp,X)`.

Key theorems: `symbol_under_column`, `isPlain_of_text`.
-/
import Asm6502.Proofs.Tree.Line
import Asm6502.Proofs.Walk.Termination
import Mathlib.Data.List.Infix

namespace Asm6502

open LineM Node

section
variable {library : Library} {runBuffer : BufferRunner} {includes index n m : Nat} {s t : LineState}

/-- The statements of a line itself are on the line. -/
theorem LineState.GetsTo.reaches
    (hrunner : ∀ allowance buffer frames r r', runBuffer allowance buffer frames r = some r' → r'.depth = r.depth)
    (h : s.GetsTo library runBuffer includes index n m t) : m = n → s.cursor.Reaches t.cursor := by
  induction h with
  | refl => exact fun _ => .refl _
  | @executes m t u _ hrest hrun ih =>
    intro hm
    have hdoes : LineM.DoesOn (lineSetting library runBuffer includes index m) True
        { t with cursor := t.cursor.skipBlanks.skip 1 } LineM.statement { t with cursor := t.cursor.skipBlanks } :=
      LineM.does_statement (isTame_lineSetting hrunner m) hrest fun _ => trivial
    have harrives := LineM.of_wp_ok hdoes hrun
    exact (ih hm).trans ((t.cursor.reaches_skipBlanks.trans (Cursor.reaches_skip _ 1)).trans harrives.reaches)
  | inlines hbefore _ _ =>
    have := hbefore.le
    omega

/-- A line is plain if no `ASM` is spelled on it. -/
theorem isPlain_of_text {line : String} {w : Walk} {r : Run}
    (hrunner : ∀ allowance buffer frames r r', runBuffer allowance buffer frames r = some r' → r'.depth = r.depth)
    (hline : ∀ cs ∈ line.toList.tails, (Directive.find? cs).map Prod.snd ≠ some .asm) :
    LineState.IsPlain library runBuffer includes index n ⟨.ofText line, #[], #[], w, r⟩ := by
  intro t hgets hasm
  have hreaches := (hgets.reaches hrunner rfl).trans t.cursor.reaches_skipBlanks
  obtain ⟨spelling, hfind⟩ := LineM.find?_of_directive? hasm
  obtain ⟨k, hk⟩ := hreaches
  refine hline t.cursor.skipBlanks.rest ?_ (by rw [hfind]; rfl)
  rw [List.mem_tails, hk]
  exact List.drop_suffix k line.toList

end

namespace Node

variable {c hi : Nat} {text : String} {nodes : List Node}

/-- The search in a line goes through its trees. -/
theorem under_line (c : Nat) (text : String) (nodes : List Node) :
    under c (.mk .line text 0 nodes) = (underLast c nodes).or (some (.mk .line text 0 nodes)) :=
  under_of_le (Nat.zero_le c)

theorem Row.found_line (h : Row 0 hi nodes) :
    ∃ found, under c (.mk .line text 0 nodes) = some found ∧ Found c [.mk .line text 0 nodes] found := by
  rw [under_line]
  cases hfound : underLast c nodes with
  | some n => exact ⟨n, rfl, (h.found hfound).mono (mem_children_subset (.mk .line text 0 nodes) [])⟩
  | none => exact ⟨_, rfl, found_self List.mem_cons_self (Nat.zero_le c) hfound (h.hasLeft_of_none hfound)⟩

/-- A line is no operator and no instruction, so it hides nothing itself. -/
theorem hides_line {d : Node} : Hides [.mk .line text 0 nodes] d ↔ Hides nodes d := by
  refine ⟨?_, fun h => h.mono (mem_children_subset (.mk .line text 0 nodes) [])⟩
  rintro ⟨p, hp, hhides⟩
  rw [preorderAll_singleton, preorder, List.mem_cons] at hp
  rcases hp with rfl | hp
  · rcases hhides with ⟨_, _, _, _, heq, -⟩ | ⟨_, _, _, _, heq, -⟩ <;> cases heq
  · exact ⟨p, hp, hhides⟩

/-- A line is no symbol, so a symbol that is found is one of its trees. -/
theorem sees_line :
    (∃ found, under c (.mk .line text 0 nodes) = some found ∧ found.kind = .symbol ∧ found.column = c) ↔
      Sees c nodes := by
  rw [under_line, Sees]
  cases underLast c nodes with
  | some n => rw [Option.some_or]
  | none =>
    rw [Option.none_or]
    refine iff_of_false ?_ ?_
    · rintro ⟨found, hfound, hsymbol, -⟩
      cases hfound
      cases hsymbol
    · rintro ⟨found, hfound, -⟩
      cases hfound

end Node

/-- The search for a column in the tree of a line without `ASM` ends at a construct that
starts at or before it, with none right inside that does, and with those deeper inside
that do in the operand before an operator that starts after it. A symbol is found at
its own column if and only if it is not in the operand before an operator or in the
address of an `(address,X)`. This is so whether the line raises a problem or not. -/
theorem symbol_under_column {library : Library} {runBuffer : BufferRunner} {includes index n : Nat} {line : String}
    {w : Walk} {r : Run}
    (hplain : LineState.IsPlain library runBuffer includes index n ⟨.ofText line, #[], #[], w, r⟩) :
    let tree := (stateOf (runLine library runBuffer includes index n ⟨.ofText line, #[], #[], w, r⟩)).tree line
    (∀ column, ∃ found, tree.under column = some found ∧ Found column [tree] found) ∧
      ∀ symbol ∈ tree.preorder, symbol.kind = .symbol →
        ((∃ found, tree.under symbol.column = some found ∧ found.kind = .symbol ∧ found.column = symbol.column) ↔
          ¬ Hides [tree] symbol) := by
  obtain ⟨hi, hrow⟩ : ∃ hi, Row 0 hi
      (stateOf (runLine library runBuffer includes index n ⟨.ofText line, #[], #[], w, r⟩)).nodes.toList := by
    rw [runLine_eq]
    exact wp_stateOf (row_statements hplain)
  refine ⟨fun column => hrow.found_line, fun symbol hmem hsymbol => ?_⟩
  have hinside := (List.mem_cons.mp hmem).resolve_left fun heq => by
    rw [heq] at hsymbol
    cases hsymbol
  rw [LineState.tree, sees_line, hides_line]
  exact hrow.sees_iff symbol hinside hsymbol

/-- A library in which lines are executed by themselves. -/
def loneSample : Library := .ofFiles []

namespace LoneSample

/-- A line by itself, in the first pass. -/
def line (text : String) : LineState :=
  ⟨.ofText text, #[], #[], .start (.ofText 0 text 0 none) [], (Run.start ⟨[], 0, none⟩ 0 .never 0).beginPass .first⟩

def tree (text : String) : Node :=
  (stateOf (runLine loneSample (runBufferWithin loneSample 1) 0 0 0 (line text))).tree text

/-- What is shown of a construct. -/
def shown (n : Node) : NodeKind × Nat × String := (n.kind, n.column, n.text)

end LoneSample

open LoneSample in
/-- In `a+b` the first symbol is hidden by the operator, and the second one is found. -/
theorem symbol_under_column_sum :
    ∃ a ∈ (tree "LDA a+b,X").preorder, ∃ b ∈ (tree "LDA a+b,X").preorder,
      shown a = (.symbol, 4, "a") ∧ Hides [tree "LDA a+b,X"] a ∧ shown b = (.symbol, 6, "b") ∧
        ¬ Hides [tree "LDA a+b,X"] b := by
  have hplain : LineState.IsPlain loneSample (runBufferWithin loneSample 1) 0 0 0 (line "LDA a+b,X") :=
    isPlain_of_text depth_runBufferWithin (by decide +kernel)
  have hshown : (tree "LDA a+b,X").preorder.map shown =
      [(.line, 0, "LDA a+b,X"), (.assembly, 0, "LDA"), (.expression, 4, "a+b"), (.binaryOp, 5, "+"), (.symbol, 4, "a"),
        (.symbol, 6, "b"), (.value, 8, "X")] ∧
      ((tree "LDA a+b,X").under 4).map shown = some (.expression, 4, "a+b") ∧
      ((tree "LDA a+b,X").under 6).map shown = some (.symbol, 6, "b") := by decide +kernel
  obtain ⟨hpreorder, hfirst, hsecond⟩ := hshown
  obtain ⟨a, ha, hshowna⟩ := List.exists_of_mem_map (l := (tree "LDA a+b,X").preorder) (f := shown)
    (b := (.symbol, 4, "a")) (by rw [hpreorder]; decide)
  obtain ⟨b, hb, hshownb⟩ := List.exists_of_mem_map (l := (tree "LDA a+b,X").preorder) (f := shown)
    (b := (.symbol, 6, "b")) (by rw [hpreorder]; decide)
  have hsearch := (symbol_under_column hplain).2
  refine ⟨a, ha, b, hb, hshowna, ?_, hshownb, ?_⟩
  · have hfound := (hsearch a ha (congrArg (·.1) hshowna)).not
    rw [not_not] at hfound
    refine hfound.mp ?_
    rintro ⟨found, hunder, hsymbol, -⟩
    have hcolumn : a.column = 4 := congrArg (·.2.1) hshowna
    rw [hcolumn] at hunder
    change (tree "LDA a+b,X").under 4 = some found at hunder
    rw [hunder] at hfirst
    have hkind : found.kind = .expression := congrArg (·.1) (Option.some.inj hfirst)
    rw [hkind] at hsymbol
    cases hsymbol
  · obtain ⟨found, hunder, hshown⟩ := Option.map_eq_some_iff.mp hsecond
    have hcolumn : b.column = 6 := congrArg (·.2.1) hshownb
    refine (hsearch b hb (congrArg (·.1) hshownb)).mp ⟨found, ?_, congrArg (·.1) hshown, ?_⟩
    · rw [hcolumn]
      exact hunder
    · rw [hcolumn]
      exact congrArg (·.2.1) hshown

open LoneSample in
/-- The symbol under a column is not found where it stands before an operator, or where
a register after it counts as standing before it. -/
theorem symbol_not_under_column :
    (tree "v = a+a").preorder.map shown =
      [(.line, 0, "v = a+a"), (.declaration, 0, "v"), (.symbol, 0, "v"), (.expression, 4, "a+a"), (.binaryOp, 5, "+"),
        (.symbol, 4, "a"), (.symbol, 6, "a")] ∧
    ((tree "v = a+a").under 4).map shown = some (.expression, 4, "a+a") ∧
    (tree "LDA (zp,X)").preorder.map shown =
      [(.line, 0, "LDA (zp,X)"), (.assembly, 0, "LDA"), (.expression, 5, "zp"), (.symbol, 5, "zp"), (.value, 4, "X")] ∧
    ((tree "LDA (zp,X)").under 5).map shown = some (.value, 4, "X") := by
  decide +kernel

end Asm6502
