/-
# How the trees of a line are laid out

The trees of a line stand one after the other on its columns, and a construct
starts before all that is inside it. There are two exceptions. An operator starts
between its operands. And the register of an operand like `(zp,X)` counts as
standing at the bracket, before the address that it follows in the tree.

So the search for a column misses what stands before its operator, and it stops at
the register instead of the address. It finds every other symbol at the symbol's
own column.

Key definitions: `Node.Row`, `Node.Hides`, `Node.Found`, `Node.Sees`.
Key theorems: `Node.Row.found`, `Node.Row.sees_iff`.
-/
import Mathlib.Tactic.ByContra
import Mathlib.Tactic.SplitIfs
import Asm6502.Node

namespace Asm6502.Node

/-! ### Trees and what is inside them -/

theorem mem_preorderAll {n : Node} {nodes : List Node} : n ∈ preorderAll nodes ↔ ∃ m ∈ nodes, n ∈ m.preorder := by
  induction nodes with
  | nil => simp [preorderAll]
  | cons m nodes ih => simp [preorderAll, ih]

theorem preorder_eq (n : Node) : n.preorder = n :: preorderAll n.children := by
  cases n
  rw [preorder]
  rfl

theorem self_mem_preorder (n : Node) : n ∈ n.preorder := by
  rw [preorder_eq]
  exact List.mem_cons_self

theorem preorderAll_singleton (n : Node) : preorderAll [n] = n.preorder := List.append_nil _

mutual

/-- What is inside a part of a tree is inside the tree. -/
theorem preorder_subset : ∀ {n p : Node}, p ∈ n.preorder → p.preorder ⊆ n.preorder
  | .mk kind text column children, p, h => by
    rw [preorder] at h
    rcases List.mem_cons.mp h with rfl | h
    · exact List.Subset.refl _
    · rw [preorder]
      exact List.Subset.trans (preorderAll_subset h) (List.subset_cons_self _ _)

theorem preorderAll_subset : ∀ {nodes : List Node} {p : Node}, p ∈ preorderAll nodes → p.preorder ⊆ preorderAll nodes
  | [], _, h => by cases h
  | n :: nodes, p, h => by
    rw [preorderAll] at h ⊢
    rcases List.mem_append.mp h with h | h
    · exact List.Subset.trans (preorder_subset h) (List.subset_append_left _ _)
    · exact List.Subset.trans (preorderAll_subset h) (List.subset_append_right _ _)

end

/-! ### Rows of trees -/

/-- Trees that stand one after the other on the columns from `lo` up to `hi`. -/
inductive Row : Nat → Nat → List Node → Prop
  | nil {lo hi : Nat} (h : lo ≤ hi) : Row lo hi []
  /-- A construct that starts before all that is inside it. -/
  | plain {lo column mid hi : Nat} {kind : NodeKind} {text : String} {children rest : List Node}
      (hline : kind ≠ .line) (hoperator : kind ≠ .binaryOp) (hleaf : kind = .symbol → children = [])
      (hlo : lo ≤ column) (hmid : column < mid) (hchildren : Row column mid children) (hrest : Row mid hi rest) :
      Row lo hi (.mk kind text column children :: rest)
  /-- An operator that starts between its operands. -/
  | operator {lo column mid hi : Nat} {text : String} {a b : Node} {rest : List Node} (ha : Row lo column [a])
      (hb : Row (column + 1) mid [b]) (hrest : Row mid hi rest) :
      Row lo hi (.mk .binaryOp text column [a, b] :: rest)
  /-- An instruction whose register counts as standing at the bracket before its
  address. -/
  | indexed {lo column bracket mid hi : Nat} {text : String} {e : Node} {rest : List Node} (hlo : lo ≤ column)
      (hbracket : column ≤ bracket) (he : Row (bracket + 1) mid [e]) (hrest : Row mid hi rest) :
      Row lo hi (.mk .assembly text column [e, .leaf .value "X" bracket] :: rest)

namespace Row

variable {lo mid hi c : Nat} {n s : Node} {nodes : List Node}

theorem le (h : Row lo hi nodes) : lo ≤ hi := by
  induction h with
  | nil h => exact h
  | plain => omega
  | operator => omega
  | indexed => omega

theorem mono {lo' hi' : Nat} (h : Row lo hi nodes) (hlo' : lo' ≤ lo) (hhi' : hi ≤ hi') : Row lo' hi' nodes := by
  induction h generalizing lo' hi' with
  | nil h => exact .nil (by omega)
  | plain hline hoperator hleaf hlo hmid hchildren _ _ ihrest =>
    exact .plain hline hoperator hleaf (by omega) hmid hchildren (ihrest (Nat.le_refl _) hhi')
  | operator _ hb _ iha _ ihrest => exact .operator (iha hlo' (Nat.le_refl _)) hb (ihrest (Nat.le_refl _) hhi')
  | indexed hlo hbracket he _ _ ihrest => exact .indexed (by omega) hbracket he (ihrest (Nat.le_refl _) hhi')

theorem append {others : List Node} (h : Row lo mid nodes) (h' : Row mid hi others) : Row lo hi (nodes ++ others) := by
  induction h with
  | nil hle => exact h'.mono hle (Nat.le_refl _)
  | plain hline hoperator hleaf hlo hmid hchildren _ _ ihrest =>
    exact .plain hline hoperator hleaf hlo hmid hchildren (ihrest h')
  | operator ha hb _ _ _ ihrest => exact .operator ha hb (ihrest h')
  | indexed hlo hbracket he _ _ ihrest => exact .indexed hlo hbracket he (ihrest h')

theorem uncons (h : Row lo hi (n :: nodes)) : ∃ mid, Row lo mid [n] ∧ Row mid hi nodes := by
  cases h with
  | plain hline hoperator hleaf hlo hmid hchildren hrest =>
    exact ⟨_, .plain hline hoperator hleaf hlo hmid hchildren (.nil (Nat.le_refl _)), hrest⟩
  | operator ha hb hrest => exact ⟨_, .operator ha hb (.nil (Nat.le_refl _)), hrest⟩
  | indexed hlo hbracket he hrest => exact ⟨_, .indexed hlo hbracket he (.nil (Nat.le_refl _)), hrest⟩

/-- A construct with nothing inside it. -/
theorem leaf {kind : NodeKind} {text : String} {column : Nat} (hline : kind ≠ .line) (hoperator : kind ≠ .binaryOp)
    (hlo : lo ≤ column) (hhi : column < hi) : Row lo hi [.leaf kind text column] :=
  .plain hline hoperator (fun _ => rfl) hlo hhi (.nil (Nat.le_of_lt hhi)) (.nil (Nat.le_refl _))

/-- All that is in a row stands on its columns, and no line is in it. -/
theorem bounds (h : Row lo hi nodes) : ∀ n ∈ preorderAll nodes, lo ≤ n.column ∧ n.column < hi ∧ n.kind ≠ .line := by
  induction h with
  | nil => exact fun _ hn => by cases hn
  | @plain _ _ _ _ kind text children _ hline _ _ hlo hmid _ hrest ihchildren ihrest =>
    have hle := hrest.le
    intro n hn
    rw [preorderAll, preorder, List.mem_append, List.mem_cons] at hn
    rcases hn with (rfl | hn) | hn
    · exact ⟨hlo, Nat.lt_of_lt_of_le hmid hle, hline⟩
    · have := ihchildren n hn
      exact ⟨by omega, by omega, this.2.2⟩
    · have := ihrest n hn
      exact ⟨by omega, by omega, this.2.2⟩
  | @operator _ column _ _ _ a b _ ha hb hrest iha ihb ihrest =>
    rw [preorderAll_singleton] at iha ihb
    have hla := ha.le
    have hlb := hb.le
    have hle := hrest.le
    intro n hn
    simp only [preorderAll, preorder, List.append_nil, List.mem_append, List.mem_cons] at hn
    rcases hn with (rfl | hn | hn) | hn
    · exact ⟨hla, by change column < _; omega, fun h => by cases h⟩
    · have := iha n hn
      exact ⟨by omega, by omega, this.2.2⟩
    · have := ihb n hn
      exact ⟨by omega, by omega, this.2.2⟩
    · have := ihrest n hn
      exact ⟨by omega, by omega, this.2.2⟩
  | @indexed _ column bracket _ _ _ e _ hlo hbracket he hrest ihe ihrest =>
    rw [preorderAll_singleton] at ihe
    have hlb := he.le
    have hle := hrest.le
    intro n hn
    simp only [preorderAll, preorder, Node.leaf, List.append_nil, List.mem_append, List.mem_cons] at hn
    rcases hn with (rfl | hn | rfl | hn) | hn
    · exact ⟨hlo, by change column < _; omega, fun h => by cases h⟩
    · have := ihe n hn
      exact ⟨by omega, by omega, this.2.2⟩
    · exact ⟨by change _ ≤ bracket; omega, by change bracket < _; omega, fun h => by cases h⟩
    · cases hn
    · have := ihrest n hn
      exact ⟨by omega, by omega, this.2.2⟩

end Row

/-! ### The search -/

section
variable {lo mid hi c : Nat} {n s : Node} {nodes : List Node}

theorem underLast_cons (c : Nat) (n : Node) (nodes : List Node) :
    underLast c (n :: nodes) = (underLast c nodes).or (under c n) := by rw [underLast]

theorem underLast_singleton (c : Nat) (n : Node) : underLast c [n] = under c n := by
  rw [underLast_cons, underLast, Option.none_or]

/-- The search goes on inside a construct that starts at or before the column. -/
theorem under_of_le (hle : n.column ≤ c) : under c n = (underLast c n.children).or (some n) := by
  cases n with
  | mk kind text column children =>
    have hstart : ¬ (decide (column > c) && kind != .line) = true := by
      have : ¬ c < column := Nat.not_lt.mpr hle
      simp [this]
    rw [under, if_neg hstart]
    rfl

theorem under_of_lt (hline : n.kind ≠ .line) (hlt : c < n.column) : under c n = none := by
  cases n with
  | mk kind text column children =>
    have hstart : (decide (column > c) && kind != .line) = true := by
      have hkind : kind ≠ .line := hline
      have : c < column := hlt
      simp [this, hkind]
    rw [under, if_pos hstart]

theorem lt_of_under_eq_none (h : under c n = none) : c < n.column := by
  by_contra hle
  rw [under_of_le (Nat.not_lt.mp hle)] at h
  cases hinner : underLast c n.children <;> rw [hinner] at h <;> cases h

theorem underLast_eq_none_iff : underLast c nodes = none ↔ ∀ n ∈ nodes, under c n = none := by
  induction nodes with
  | nil => simp [underLast]
  | cons n nodes ih => simp [underLast_cons, Option.or_eq_none_iff, ih, and_comm]

/-- Whether an operator has a construct in the operand before it. -/
def HasLeft (p d : Node) : Prop := ∃ text column a b, p = .mk .binaryOp text column [a, b] ∧ d ∈ a.preorder

/-- Whether an instruction has a construct in its address, with a register after it
that counts as standing before it. -/
def HasIndexed (p d : Node) : Prop :=
  ∃ text column e bracket, p = .mk .assembly text column [e, .leaf .value "X" bracket] ∧ bracket < e.column ∧
    d ∈ e.preorder

/-- Whether a construct in trees is behind another one that the search takes or
leaves in its place. -/
def Hides (nodes : List Node) (d : Node) : Prop := ∃ p ∈ preorderAll nodes, p.HasLeft d ∨ p.HasIndexed d

/-- Where the search finds nothing, what starts at or before the column stands before
an operator that starts after it. -/
theorem Row.hasLeft_of_none (h : Row lo hi nodes) (hnone : underLast c nodes = none) :
    ∀ d ∈ preorderAll nodes, d.column ≤ c → ∃ p ∈ preorderAll nodes, c < p.column ∧ p.HasLeft d := by
  induction h with
  | nil => exact fun _ hd => by cases hd
  | @plain _ column _ _ kind text children _ _ _ _ _ _ hchildren _ _ ihrest =>
    rw [underLast_cons, Option.or_eq_none_iff] at hnone
    have hlt : c < column := lt_of_under_eq_none hnone.2
    intro d hd hle
    rw [preorderAll, preorder, List.mem_append, List.mem_cons] at hd
    rcases hd with (rfl | hd) | hd
    · exact absurd hlt (Nat.not_lt.mpr hle)
    · have := hchildren.bounds d hd
      omega
    · obtain ⟨p, hp, hfound⟩ := ihrest hnone.1 d hd hle
      exact ⟨p, List.mem_append_right _ hp, hfound⟩
  | @operator _ column _ _ text a b _ ha hb _ _ _ ihrest =>
    rw [underLast_cons, Option.or_eq_none_iff] at hnone
    have hlt : c < column := lt_of_under_eq_none hnone.2
    intro d hd hle
    simp only [preorderAll, preorder, List.append_nil, List.mem_append, List.mem_cons] at hd
    rcases hd with (rfl | hd | hd) | hd
    · exact absurd hlt (Nat.not_lt.mpr hle)
    · exact ⟨_, List.mem_append_left _ (self_mem_preorder _), hlt, text, column, a, b, rfl, hd⟩
    · have := hb.bounds d (by rwa [preorderAll_singleton])
      omega
    · obtain ⟨p, hp, hfound⟩ := ihrest hnone.1 d hd hle
      exact ⟨p, List.mem_append_right _ hp, hfound⟩
  | @indexed _ column bracket _ _ text e _ _ hbracket he _ _ ihrest =>
    rw [underLast_cons, Option.or_eq_none_iff] at hnone
    have hlt : c < column := lt_of_under_eq_none hnone.2
    intro d hd hle
    simp only [preorderAll, preorder, Node.leaf, List.append_nil, List.mem_append, List.mem_cons] at hd
    rcases hd with (rfl | hd | rfl | hd) | hd
    · exact absurd hlt (Nat.not_lt.mpr hle)
    · have := he.bounds d (by rwa [preorderAll_singleton])
      omega
    · change bracket ≤ c at hle
      omega
    · cases hd
    · obtain ⟨p, hp, hfound⟩ := ihrest hnone.1 d hd hle
      exact ⟨p, List.mem_append_right _ hp, hfound⟩

/-- What the search finds in trees. -/
structure Found (c : Nat) (nodes : List Node) (n : Node) : Prop where
  mem : n ∈ preorderAll nodes
  starts : n.column ≤ c
  innermost : ∀ child ∈ n.children, c < child.column
  inside : ∀ d ∈ preorderAll n.children, d.column ≤ c → ∃ p ∈ preorderAll n.children, c < p.column ∧ p.HasLeft d

theorem Found.mono {others : List Node} (h : Found c nodes n) (hsubset : preorderAll nodes ⊆ preorderAll others) :
    Found c others n := ⟨hsubset h.mem, h.starts, h.innermost, h.inside⟩

/-- The search stops at a construct if it finds nothing inside it. -/
theorem found_self (hmem : n ∈ preorderAll nodes) (hle : n.column ≤ c) (hnone : underLast c n.children = none)
    (hinside : ∀ d ∈ preorderAll n.children, d.column ≤ c →
      ∃ p ∈ preorderAll n.children, c < p.column ∧ p.HasLeft d) : Found c nodes n :=
  ⟨hmem, hle, fun child hchild => lt_of_under_eq_none (underLast_eq_none_iff.mp hnone child hchild), hinside⟩

/-- What is found at a construct is the construct or is found inside it. -/
theorem eq_or_of_under {m : Node} (h : under c m = some n) (hline : m.kind ≠ .line) :
    m.column ≤ c ∧ (underLast c m.children = some n ∨ (underLast c m.children = none ∧ n = m)) := by
  have hle : m.column ≤ c := by
    by_contra hlt
    rw [under_of_lt hline (Nat.not_le.mp hlt)] at h
    cases h
  rw [under_of_le hle] at h
  refine ⟨hle, ?_⟩
  cases hinner : underLast c m.children with
  | none =>
    rw [hinner] at h
    exact Or.inr ⟨rfl, (Option.some.inj h).symm⟩
  | some found =>
    rw [hinner] at h
    exact Or.inl h

theorem mem_children_subset (n : Node) (nodes : List Node) : preorderAll n.children ⊆ preorderAll (n :: nodes) := by
  rw [preorderAll, preorder_eq]
  exact List.Subset.trans (List.subset_cons_self _ _) (List.subset_append_left _ _)

theorem preorderAll_subset_of_subset {others : List Node} (h : nodes ⊆ others) :
    preorderAll nodes ⊆ preorderAll others := by
  intro d hd
  obtain ⟨m, hm, hd⟩ := mem_preorderAll.mp hd
  exact mem_preorderAll.mpr ⟨m, h hm, hd⟩

/-- The search finds an innermost construct that starts at or before the column. What
is inside it and starts there too stands before an operator that starts after it. -/
theorem Row.found (h : Row lo hi nodes) (hfound : underLast c nodes = some n) : Found c nodes n := by
  induction h with
  | nil => cases hfound
  | @plain _ column _ _ kind text children rest hline _ _ _ _ hchildren _ ihchildren ihrest =>
    rw [underLast_cons, Option.or_eq_some_iff] at hfound
    rcases hfound with hfound | ⟨-, hfound⟩
    · exact (ihrest hfound).mono (List.subset_append_right _ _)
    · obtain ⟨hle, hinner | ⟨hnone, rfl⟩⟩ := eq_or_of_under hfound hline
      · exact (ihchildren hinner).mono (mem_children_subset (.mk kind text column children) rest)
      · exact found_self (List.mem_append_left _ (self_mem_preorder _)) hle hnone (hchildren.hasLeft_of_none hnone)
  | @operator _ column _ _ text a b rest ha hb _ iha ihb ihrest =>
    have hinside : preorderAll [a, b] ⊆ preorderAll (.mk .binaryOp text column [a, b] :: rest) :=
      mem_children_subset (.mk .binaryOp text column [a, b]) rest
    have hleft : preorderAll [a] ⊆ preorderAll [a, b] := preorderAll_subset_of_subset (by simp)
    have hright : preorderAll [b] ⊆ preorderAll [a, b] := preorderAll_subset_of_subset (by simp)
    rw [underLast_cons, Option.or_eq_some_iff] at hfound
    rcases hfound with hfound | ⟨-, hfound⟩
    · exact (ihrest hfound).mono (List.subset_append_right _ _)
    · obtain ⟨hle, hinner | ⟨hnone, rfl⟩⟩ := eq_or_of_under hfound fun h => by cases h
      · change underLast c [a, b] = some n at hinner
        rw [underLast_cons, Option.or_eq_some_iff, ← underLast_singleton c a] at hinner
        rcases hinner with hinner | ⟨-, hinner⟩
        · exact (ihb hinner).mono (List.Subset.trans hright hinside)
        · exact (iha hinner).mono (List.Subset.trans hleft hinside)
      · refine found_self (List.mem_append_left _ (self_mem_preorder _)) hle hnone fun d hd hd' => ?_
        change d ∈ preorderAll [a, b] at hd
        change underLast c [a, b] = none at hnone
        change ∃ p ∈ preorderAll [a, b], _
        rw [underLast_cons, Option.or_eq_none_iff, ← underLast_singleton c a] at hnone
        rcases mem_preorderAll.mp hd with ⟨m, hm, hd⟩
        rcases List.mem_cons.mp hm with rfl | hm
        · obtain ⟨p, hp, hfound⟩ := ha.hasLeft_of_none hnone.2 d (by rwa [preorderAll_singleton]) hd'
          exact ⟨p, hleft hp, hfound⟩
        · obtain rfl := List.mem_singleton.mp hm
          obtain ⟨p, hp, hfound⟩ := hb.hasLeft_of_none hnone.1 d (by rwa [preorderAll_singleton]) hd'
          exact ⟨p, hright hp, hfound⟩
  | @indexed _ column bracket _ _ text e rest _ hbracket he _ ihe ihrest =>
    have hinside : preorderAll [e, .leaf .value "X" bracket] ⊆
        preorderAll (.mk .assembly text column [e, .leaf .value "X" bracket] :: rest) :=
      mem_children_subset (.mk .assembly text column [e, .leaf .value "X" bracket]) rest
    rw [underLast_cons, Option.or_eq_some_iff] at hfound
    rcases hfound with hfound | ⟨-, hfound⟩
    · exact (ihrest hfound).mono (List.subset_append_right _ _)
    · obtain ⟨hle, hinner | ⟨hnone, rfl⟩⟩ := eq_or_of_under hfound fun h => by cases h
      · change underLast c [e, .leaf .value "X" bracket] = some n at hinner
        rw [underLast_cons, Option.or_eq_some_iff, underLast_singleton, ← underLast_singleton c e] at hinner
        rcases hinner with hinner | ⟨-, hinner⟩
        · obtain ⟨hle', hnothing | ⟨-, rfl⟩⟩ := eq_or_of_under hinner fun h => by cases h
          · cases hnothing
          · refine ⟨hinside (mem_preorderAll.mpr ⟨_, by simp, self_mem_preorder _⟩), hle', ?_, ?_⟩
            · exact fun child hchild => by cases hchild
            · exact fun d hd => by cases hd
        · exact (ihe hinner).mono (List.Subset.trans (preorderAll_subset_of_subset (by simp)) hinside)
      · refine found_self (List.mem_append_left _ (self_mem_preorder _)) hle hnone fun d hd hd' => ?_
        change underLast c [e, .leaf .value "X" bracket] = none at hnone
        change d ∈ preorderAll [e, .leaf .value "X" bracket] at hd
        have hregister := lt_of_under_eq_none (underLast_eq_none_iff.mp hnone (.leaf .value "X" bracket) (by simp))
        change c < bracket at hregister
        rcases mem_preorderAll.mp hd with ⟨m, hm, hd⟩
        rcases List.mem_cons.mp hm with rfl | hm
        · have := he.bounds d (by rwa [preorderAll_singleton])
          omega
        · obtain rfl := List.mem_singleton.mp hm
          obtain rfl : d = .leaf .value "X" bracket := by simpa [Node.leaf, preorder, preorderAll] using hd
          change bracket ≤ c at hd'
          omega

/-- Whether the search for a column finds a symbol at that very column. -/
def Sees (c : Nat) (nodes : List Node) : Prop := ∃ n, underLast c nodes = some n ∧ n.kind = .symbol ∧ n.column = c

theorem Row.underLast_eq_none (h : Row lo hi nodes) (hlt : c < lo) : underLast c nodes = none := by
  cases hfound : underLast c nodes with
  | none => rfl
  | some n =>
    obtain ⟨hmem, hle, -⟩ := h.found hfound
    have := h.bounds n hmem
    omega

/-- Of a tree and those after it, the search for what is in the tree looks at the tree
alone. -/
theorem Row.sees_cons_left (hrest : Row mid hi nodes) (hlt : c < mid) : Sees c (n :: nodes) ↔ Sees c [n] := by
  unfold Sees
  rw [underLast_cons, hrest.underLast_eq_none hlt, Option.none_or, underLast_singleton]

/-- The search for what is in the trees after the first does not find the first. -/
theorem Row.sees_cons_right (hn : Row lo mid [n]) (hle : mid ≤ c) : Sees c (n :: nodes) ↔ Sees c nodes := by
  unfold Sees
  rw [underLast_cons]
  cases hfound : underLast c nodes with
  | some m => rw [Option.some_or]
  | none =>
    rw [Option.none_or, ← underLast_singleton]
    refine ⟨?_, fun ⟨m, hm, _⟩ => by cases hm⟩
    rintro ⟨m, hm, -, hcolumn⟩
    have := hn.bounds m (hn.found hm).mem
    omega

theorem HasLeft.mem {p d : Node} (h : p.HasLeft d) : d ∈ p.preorder := by
  obtain ⟨text, column, a, b, rfl, hd⟩ := h
  simp only [preorder, preorderAll, List.mem_cons, List.mem_append]
  exact Or.inr (Or.inl hd)

theorem HasIndexed.mem {p d : Node} (h : p.HasIndexed d) : d ∈ p.preorder := by
  obtain ⟨text, column, e, bracket, rfl, -, hd⟩ := h
  simp only [preorder, preorderAll, List.mem_cons, List.mem_append]
  exact Or.inr (Or.inl hd)

/-- What hides a construct in trees has it inside. -/
theorem hides_of_mem {others : List Node} (h : Hides others s)
    (hdisjoint : ∀ p ∈ preorderAll others, s ∈ p.preorder → p ∈ preorderAll nodes) : Hides nodes s := by
  obtain ⟨p, hp, hhides⟩ := h
  have hs : s ∈ p.preorder := hhides.elim HasLeft.mem HasIndexed.mem
  exact ⟨p, hdisjoint p hp hs, hhides⟩

theorem Hides.mono {others : List Node} (h : Hides nodes s) (hsubset : preorderAll nodes ⊆ preorderAll others) :
    Hides others s := hides_of_mem h fun _ hp _ => hsubset hp

theorem Row.hides_cons_left (hrest : Row mid hi nodes) (hlt : s.column < mid) : Hides (n :: nodes) s ↔ Hides [n] s := by
  refine ⟨fun h => hides_of_mem h fun p hp hs => ?_, fun h => h.mono (preorderAll_subset_of_subset (by simp))⟩
  rw [preorderAll_singleton]
  refine (List.mem_append.mp hp).resolve_right fun hp => ?_
  have := hrest.bounds s (preorderAll_subset hp hs)
  omega

theorem Row.hides_cons_right (hn : Row lo mid [n]) (hle : mid ≤ s.column) : Hides (n :: nodes) s ↔ Hides nodes s := by
  refine ⟨fun h => hides_of_mem h fun p hp hs => ?_, fun h => h.mono (preorderAll_subset_of_subset (by simp))⟩
  refine (List.mem_append.mp hp).resolve_left fun hp => ?_
  have := hn.bounds s (by rw [preorderAll_singleton]; exact preorder_subset hp hs)
  omega

/-- In a row a register stands after the address. -/
theorem Row.not_hasIndexed {column : Nat} {kind : NodeKind} {text : String} {children : List Node}
    (h : Row lo hi children) (d : Node) : ¬ HasIndexed (.mk kind text column children) d := by
  rintro ⟨_, _, e, bracket, heq, hbefore, -⟩
  cases heq
  obtain ⟨mid, he, hregister⟩ := h.uncons
  have hlt := he.bounds e (by rw [preorderAll_singleton]; exact self_mem_preorder e)
  have hle : mid ≤ bracket := (hregister.bounds (.leaf .value "X" bracket) List.mem_cons_self).1
  omega

/-- A construct that starts before all that is inside it hides nothing itself. -/
theorem Row.sees_plain {column : Nat} {kind : NodeKind} {text : String} {children : List Node}
    (hoperator : kind ≠ .binaryOp) (hleaf : kind = .symbol → children = []) (hchildren : Row column mid children)
    (ih : s ∈ preorderAll children → (Sees s.column children ↔ ¬ Hides children s))
    (hs : s ∈ preorder (.mk kind text column children)) (hsymbol : s.kind = .symbol) :
    Sees s.column [.mk kind text column children] ↔ ¬ Hides [.mk kind text column children] s := by
  have hhides : Hides [.mk kind text column children] s ↔ Hides children s := by
    refine ⟨?_, fun h => h.mono (mem_children_subset (.mk kind text column children) [])⟩
    rintro ⟨p, hp, hhides⟩
    rw [preorderAll_singleton, preorder, List.mem_cons] at hp
    rcases hp with rfl | hp
    · rcases hhides with ⟨_, _, _, _, heq, -⟩ | hindexed
      · cases heq
        exact absurd rfl hoperator
      · exact absurd hindexed (hchildren.not_hasIndexed s)
    · exact ⟨p, hp, hhides⟩
  rw [hhides]
  rw [preorder, List.mem_cons] at hs
  rcases hs with rfl | hs
  · obtain rfl := hleaf hsymbol
    have hsees : Sees column [.mk kind text column []] := by
      refine ⟨.mk kind text column [], ?_, hsymbol, rfl⟩
      have hinside : under column (.mk kind text column []) = (underLast column []).or (some _) :=
        under_of_le (n := .mk kind text column []) (Nat.le_refl column)
      rw [underLast_singleton, hinside]
      rfl
    have hclear : ¬ Hides [] (.mk kind text column []) := fun ⟨p, hp, _⟩ => by cases hp
    exact iff_of_true hsees hclear
  · rw [← ih hs]
    have hle := (hchildren.bounds s hs).1
    unfold Sees
    rw [underLast_singleton, under_of_le hle]
    change (∃ n, (underLast s.column children).or (some (.mk kind text column children)) = some n ∧ _) ↔ _
    cases hfound : underLast s.column children with
    | some m => rw [Option.some_or]
    | none =>
      rw [Option.none_or]
      refine ⟨?_, fun ⟨m, hm, _⟩ => by cases hm⟩
      rintro ⟨m, hm, hkind, -⟩
      cases hm
      rw [hleaf hkind] at hs
      cases hs

/-- An operator hides all that stands before it. -/
theorem Row.sees_operator {column : Nat} {text : String} {a b : Node} (ha : Row lo column [a])
    (hb : Row (column + 1) mid [b]) (ih : s ∈ preorderAll [b] → (Sees s.column [b] ↔ ¬ Hides [b] s))
    (hs : s ∈ preorder (.mk .binaryOp text column [a, b])) (hsymbol : s.kind = .symbol) :
    Sees s.column [.mk .binaryOp text column [a, b]] ↔ ¬ Hides [.mk .binaryOp text column [a, b]] s := by
  simp only [preorder, preorderAll, List.append_nil, List.mem_cons, List.mem_append] at hs
  rcases hs with rfl | hs | hs
  · cases hsymbol
  · have hlt := (ha.bounds s (by rwa [preorderAll_singleton])).2.1
    have hmissed : ¬ Sees s.column [.mk .binaryOp text column [a, b]] := by
      rintro ⟨n, hn, -⟩
      rw [underLast_singleton, under_of_lt (fun h => by cases h) hlt] at hn
      cases hn
    refine iff_of_false hmissed (not_not.mpr ⟨_, List.mem_cons_self, Or.inl ⟨text, column, a, b, rfl, hs⟩⟩)
  · have hs : s ∈ preorderAll [b] := by rwa [preorderAll_singleton]
    have hlt := (hb.bounds s hs).1
    have hhides : Hides [.mk .binaryOp text column [a, b]] s ↔ Hides [b] s := by
      refine ⟨?_, fun h => h.mono ?_⟩
      · rintro ⟨p, hp, hhides⟩
        rw [preorderAll_singleton, preorder, List.mem_cons] at hp
        rcases hp with rfl | hp
        · rcases hhides with ⟨_, _, _, _, heq, hleft⟩ | ⟨_, _, _, _, heq, -⟩
          · cases heq
            have := (ha.bounds s (by rwa [preorderAll_singleton])).2.1
            omega
          · cases heq
        · exact (ha.hides_cons_right (by omega)).mp ⟨p, hp, hhides⟩
      · have hright : preorderAll [b] ⊆ preorderAll [a, b] := preorderAll_subset_of_subset (by simp)
        exact List.Subset.trans hright (mem_children_subset (.mk .binaryOp text column [a, b]) [])
    have hboth : Sees s.column [a, b] ↔ Sees s.column [b] := ha.sees_cons_right (by omega)
    rw [hhides, ← ih hs, ← hboth]
    unfold Sees
    rw [underLast_singleton, under_of_le (by change column ≤ _; omega)]
    change (∃ n, (underLast s.column [a, b]).or (some (.mk .binaryOp text column [a, b])) = some n ∧ _) ↔ _
    cases hfound : underLast s.column [a, b] with
    | some m => rw [Option.some_or]
    | none =>
      rw [Option.none_or]
      refine ⟨?_, fun ⟨m, hm, _⟩ => by cases hm⟩
      rintro ⟨m, hm, hkind, -⟩
      cases hm
      cases hkind

/-- A register that counts as standing before the address hides all of it. -/
theorem Row.sees_indexed {column bracket : Nat} {text : String} {e : Node} (hbracket : column ≤ bracket)
    (he : Row (bracket + 1) mid [e]) (hs : s ∈ preorder (.mk .assembly text column [e, .leaf .value "X" bracket]))
    (hsymbol : s.kind = .symbol) :
    Sees s.column [.mk .assembly text column [e, .leaf .value "X" bracket]] ↔
      ¬ Hides [.mk .assembly text column [e, .leaf .value "X" bracket]] s := by
  simp only [preorder, preorderAll, Node.leaf, List.append_nil, List.mem_cons, List.mem_append, List.not_mem_nil,
    or_false] at hs
  rcases hs with rfl | hs | rfl
  · cases hsymbol
  · have hlt := (he.bounds s (by rwa [preorderAll_singleton])).1
    have hbefore := (he.bounds e (by rw [preorderAll_singleton]; exact self_mem_preorder e)).1
    have hregister : under s.column (.leaf .value "X" bracket) = some (.leaf .value "X" bracket) := by
      rw [under_of_le (by change bracket ≤ _; omega)]
      rfl
    have hmissed : ¬ Sees s.column [.mk .assembly text column [e, .leaf .value "X" bracket]] := by
      rintro ⟨n, hn, hkind, -⟩
      rw [underLast_singleton, under_of_le (by change column ≤ _; omega)] at hn
      change (underLast s.column [e, .leaf .value "X" bracket]).or _ = _ at hn
      rw [underLast_cons, underLast_singleton, hregister] at hn
      cases hn
      cases hkind
    exact iff_of_false hmissed (not_not.mpr
      ⟨_, List.mem_cons_self, Or.inr ⟨text, column, e, bracket, rfl, by omega, hs⟩⟩)
  · cases hsymbol

/-- The search for the column of a symbol finds a symbol at that column exactly if
nothing hides it. -/
theorem Row.sees_iff (h : Row lo hi nodes) :
    ∀ s ∈ preorderAll nodes, s.kind = .symbol → (Sees s.column nodes ↔ ¬ Hides nodes s) := by
  have hcons {n : Node} {rest : List Node} {lo mid hi : Nat} (hn : Row lo mid [n]) (hrest : Row mid hi rest)
      (ihn : ∀ s ∈ n.preorder, s.kind = .symbol → (Sees s.column [n] ↔ ¬ Hides [n] s))
      (ihrest : ∀ s ∈ preorderAll rest, s.kind = .symbol → (Sees s.column rest ↔ ¬ Hides rest s)) :
      ∀ s ∈ preorderAll (n :: rest), s.kind = .symbol → (Sees s.column (n :: rest) ↔ ¬ Hides (n :: rest) s) := by
    intro s hs hsymbol
    rcases List.mem_append.mp hs with hs | hs
    · have hlt := (hn.bounds s (by rwa [preorderAll_singleton])).2.1
      rw [hrest.sees_cons_left hlt, hrest.hides_cons_left hlt]
      exact ihn s hs hsymbol
    · have hle := (hrest.bounds s hs).1
      rw [hn.sees_cons_right hle, hn.hides_cons_right hle]
      exact ihrest s hs hsymbol
  induction h with
  | nil => exact fun _ hs => by cases hs
  | plain hline hoperator hleaf hlo hmid hchildren hrest ihchildren ihrest =>
    refine hcons (.plain hline hoperator hleaf hlo hmid hchildren (.nil (Nat.le_refl _))) hrest ?_ ihrest
    exact fun s hs hsymbol => sees_plain hoperator hleaf hchildren (fun h => ihchildren s h hsymbol) hs hsymbol
  | operator ha hb hrest _ ihb ihrest =>
    refine hcons (.operator ha hb (.nil (Nat.le_refl _))) hrest ?_ ihrest
    exact fun s hs hsymbol => sees_operator ha hb (fun h => ihb s h hsymbol) hs hsymbol
  | indexed hlo hbracket he hrest _ ihrest =>
    refine hcons (.indexed hlo hbracket he (.nil (Nat.le_refl _))) hrest ?_ ihrest
    exact fun s hs hsymbol => sees_indexed hbracket he hs hsymbol

end

end Asm6502.Node
