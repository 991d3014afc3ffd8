/-
# What happens to scopes and names in a pass

A pass is followed from moment to moment, where a moment is the open scopes
and the run. From one moment to the next a scope is entered, by opening it or
by going on with a loop, or the innermost one is closed; names are looked up;
one symbol is changed; or something else in the run changes.

Scopes are numbered as they are opened, and a loop counts its iterations. So
the stamp of a scope that is entered is new in the pass, and a stamp that is no
longer open never comes back. A symbol that is new stands in scopes that are
open. Together this says where what is found under a name was defined.

Key definitions: `Moment`, `Moment.Enters`, `Moment.Changes`, `Moment.Happens`,
`Moment.Reaches`, `Moment.IsFormed`, `Moment.IsPast`, `Moment.HasOpen`.
Key theorems: `Moment.Enters.stamp_ne`, `Moment.exists_enters`, `Moment.hasOpen_between`,
`Moment.exists_definition`.
-/
import Mathlib.Logic.Relation
import Asm6502.Proofs.Label.Walk

namespace Asm6502

/-- The open scopes, innermost first, and the run at a moment of a pass. -/
structure Moment where
  frames : List Frame
  run : Run

/-- Whether the parameters of a macro are plain names. -/
def Macro.HasPlainParameters (m : Macro) : Prop := ∀ parameter ∈ m.parameters, IsPlain parameter

/-- A change of the run that leaves the scopes and the symbols as they are and
finds nothing. -/
structure Run.Aside (r r' : Run) : Prop where
  pass : r'.pass = r.pass
  lastScope : r'.lastScope = r.lastScope
  symbols : r'.symbols = r.symbols
  macros : ∀ name m, r'.macros.get? name = some m →
    r.macros.get? name = some m ∨ m.HasPlainParameters
  history : ∃ notes, r'.history = notes ++ r.history ∧
    ∀ n ∈ notes, ∀ pass full value, n ≠ .found pass full value

namespace Moment

/-! ### Steps -/

/-- A scope is opened with the next number of the pass, or the innermost loop
goes on to its next iteration. -/
inductive Enters : Moment → Moment → Prop
  | opened {frames : List Frame} {r : Run} (kind : FrameKind) (spot : Spot)
      (hkind : ∀ l, kind = .loop l → IsPlain l.name) :
      Enters ⟨frames, r⟩
        ⟨⟨kind, r.lastScope + 1, 0, spot⟩ :: frames, { r with lastScope := r.lastScope + 1 }⟩
  | iterated {f : Frame} {outer : List Frame} {r : Run} {l l' : Loop} (hkind : f.kind = .loop l)
      (hnext : l.next? = some l') :
      Enters ⟨f :: outer, r⟩ ⟨{ f with kind := .loop l', count := f.count + 1 } :: outer, r⟩

/-- What may become of the symbols while scopes are open. -/
inductive Changes (frames : List Frame) (r : Run) : SymbolTable → Prop
  /-- A label or an assignment defines a name in some of the open scopes. -/
  | defined {name : String} {outer : List Frame} {value : Value} {isLabel : Bool} {p : Position}
      {symbols : SymbolTable} (hname : IsPlain name) (houter : outer <:+ frames)
      (hadd : r.symbols.add? (fullName name outer) value isLabel (some p) = some symbols) :
      Changes frames r symbols
  /-- An assignment changes what was defined at its own place. -/
  | reassigned {full : String} {symbol : Symbol} {p : Position} (value : Value)
      (hsymbol : r.symbols.get? full = some symbol) (hplace : symbol.definedAt = some p) :
      Changes frames r (r.symbols.change full value)
  | processor (value : Value) : Changes frames r (r.symbols.change "CPU" value)
  /-- The variable of the innermost loop gets its value. -/
  | bound {f : Frame} {outer : List Frame} {l : Loop} (hframes : frames = f :: outer)
      (hkind : f.kind = .loop l) : Changes frames r (Walk.bindVariable r.symbols frames l)
  /-- The parameter of a macro loses the value of an earlier call. -/
  | released {f : Frame} {outer : List Frame} {name parameter : String} {m : Macro}
      (hframes : frames = f :: outer) (hf : f.isExpansion = true)
      (hm : r.macros.get? name = some m) (hparameter : parameter ∈ m.parameters) :
      Changes frames r (r.symbols.erase (fullName parameter frames))
  /-- The parameter of a macro gets the value of its argument. -/
  | given {f : Frame} {outer : List Frame} {name parameter : String} {m : Macro} (value : Value)
      (hframes : frames = f :: outer) (hf : f.isExpansion = true)
      (hm : r.macros.get? name = some m) (hparameter : parameter ∈ m.parameters) :
      Changes frames r (r.symbols.add (fullName parameter frames) value false none)

/-- What happens from one moment to the next. -/
inductive Happens : Moment → Moment → Prop
  | entered {m m' : Moment} : Enters m m' → Happens m m'
  | closed {f : Frame} {outer : List Frame} {r : Run} : Happens ⟨f :: outer, r⟩ ⟨outer, r⟩
  | looked {frames : List Frame} {r r' : Run} : r.Follows frames r' → Happens ⟨frames, r⟩ ⟨frames, r'⟩
  | changed {frames : List Frame} {r : Run} {symbols : SymbolTable} : Changes frames r symbols →
      Happens ⟨frames, r⟩ ⟨frames, { r with symbols }⟩
  | aside {frames : List Frame} {r r' : Run} : r.Aside r' → Happens ⟨frames, r⟩ ⟨frames, r'⟩

/-- Whether one moment leads to another, step by step. -/
abbrev Reaches : Moment → Moment → Prop := Relation.ReflTransGen Happens

/-- Scopes are numbered in the order in which they are opened, and what names
come from is plain. -/
structure IsFormed (m : Moment) : Prop where
  ordered : m.frames.Pairwise fun f g => g.id < f.id
  opened : ∀ f ∈ m.frames, f.id ≤ m.run.lastScope
  loops : ∀ f ∈ m.frames, ∀ l, f.kind = .loop l → IsPlain l.name
  macros : ∀ name definition, m.run.macros.get? name = some definition → definition.HasPlainParameters

variable {m m' : Moment}

theorem IsFormed.outward {frames outer : List Frame} {r : Run} (h : (⟨frames, r⟩ : Moment).IsFormed)
    (houter : outer <:+ frames) : (⟨outer, r⟩ : Moment).IsFormed where
  ordered := h.ordered.sublist houter.sublist
  opened f hf := h.opened f (houter.subset hf)
  loops f hf := h.loops f (houter.subset hf)
  macros := h.macros

theorem IsFormed.enters (h : m.IsFormed) (hm : Enters m m') : m'.IsFormed := by
  cases hm with
  | @opened frames r kind spot hkind =>
    constructor
    case ordered =>
      refine List.pairwise_cons.mpr ⟨fun f hf => ?_, h.ordered⟩
      have := h.opened f hf
      simp only at this ⊢
      omega
    case opened =>
      intro f hf
      rcases List.mem_cons.mp hf with rfl | hf
      · exact Nat.le_refl _
      · exact Nat.le_succ_of_le (h.opened f hf)
    case loops =>
      intro f hf
      rcases List.mem_cons.mp hf with rfl | hf
      · exact hkind
      · exact h.loops f hf
    case macros => exact h.macros
  | @iterated f outer r l l' hkind hnext =>
    obtain ⟨hlater, hordered⟩ := List.pairwise_cons.mp h.ordered
    obtain ⟨hname, -⟩ := Walk.eq_of_next? hnext
    constructor
    case ordered => exact List.pairwise_cons.mpr ⟨hlater, hordered⟩
    case opened =>
      intro g hg
      rcases List.mem_cons.mp hg with rfl | hg
      · exact h.opened f List.mem_cons_self
      · exact h.opened g (List.mem_cons_of_mem _ hg)
    case loops =>
      intro g hg l'' hl''
      rcases List.mem_cons.mp hg with rfl | hg
      · cases hl''
        rw [hname]
        exact h.loops f List.mem_cons_self l hkind
      · exact h.loops g (List.mem_cons_of_mem _ hg) l'' hl''
    case macros => exact h.macros

theorem IsFormed.happens (h : m.IsFormed) (hm : Happens m m') : m'.IsFormed := by
  cases hm with
  | entered henters => exact h.enters henters
  | closed => exact h.outward (List.suffix_cons _ _)
  | looked hfollows =>
    refine ⟨h.ordered, fun f hf => ?_, h.loops, fun name definition hget => ?_⟩
    · rw [hfollows.lastScope]
      exact h.opened f hf
    · rw [hfollows.macros] at hget
      exact h.macros name definition hget
  | changed => exact ⟨h.ordered, h.opened, h.loops, h.macros⟩
  | aside haside =>
    refine ⟨h.ordered, fun f hf => ?_, h.loops, fun name definition hget => ?_⟩
    · rw [haside.lastScope]
      exact h.opened f hf
    · exact (haside.macros name definition hget).elim (h.macros name definition) id

theorem IsFormed.reaches (h : m.IsFormed) (hm : Reaches m m') : m'.IsFormed := by
  induction hm with
  | refl => exact h
  | tail _ hstep ih => exact ih.happens hstep

/-! ### Stamps are new -/

/-- Whether the scope of a number has been opened, and stands at no lower count
if it is open. -/
def IsPast (id count : Nat) (m : Moment) : Prop :=
  id ≤ m.run.lastScope ∧ ∀ g ∈ m.frames, g.id = id → count ≤ g.count

variable {id count : Nat}

theorem IsPast.happens (h : m.IsPast id count) (hm : Happens m m') : m'.IsPast id count := by
  obtain ⟨hid, hcount⟩ := h
  cases hm with
  | entered henters =>
    cases henters with
    | opened kind spot hkind =>
      refine ⟨Nat.le_succ_of_le hid, fun g hg heq => ?_⟩
      rcases List.mem_cons.mp hg with rfl | hg
      · simp only at heq hid
        omega
      · exact hcount g hg heq
    | @iterated f outer r l l' hkind hnext =>
      refine ⟨hid, fun g hg heq => ?_⟩
      rcases List.mem_cons.mp hg with rfl | hg
      · exact Nat.le_succ_of_le (hcount f List.mem_cons_self heq)
      · exact hcount g (List.mem_cons_of_mem _ hg) heq
  | closed => exact ⟨hid, fun g hg => hcount g (List.mem_cons_of_mem _ hg)⟩
  | looked hfollows => exact ⟨by rw [hfollows.lastScope]; exact hid, hcount⟩
  | changed => exact ⟨hid, hcount⟩
  | aside haside => exact ⟨by rw [haside.lastScope]; exact hid, hcount⟩

theorem IsPast.reaches (h : m.IsPast id count) (hm : Reaches m m') : m'.IsPast id count := by
  induction hm with
  | refl => exact h
  | tail _ hstep ih => exact ih.happens hstep

theorem IsFormed.isPast (h : m.IsFormed) {f : Frame} (hf : f ∈ m.frames) : m.IsPast f.id f.count := by
  refine ⟨h.opened f hf, fun g hg heq => ?_⟩
  rw [eq_of_id_eq h.ordered hg hf heq]

theorem Enters.not_isPast (h : Enters m m') {f : Frame} (hf : m'.frames.head? = some f) :
    ¬ m.IsPast f.id f.count := by
  rintro ⟨hid, hcount⟩
  cases h with
  | opened kind spot hkind =>
    cases hf
    simp only at hid
    omega
  | @iterated g outer r l l' hkind hnext =>
    cases hf
    have := hcount g List.mem_cons_self rfl
    simp only at this
    omega

/-- A scope or an iteration that is entered has another stamp than any that was
entered before. -/
theorem Enters.stamp_ne {m₁ m₁' m₂ m₂' : Moment} (hformed : m₁.IsFormed) (h₁ : Enters m₁ m₁')
    (hbetween : Reaches m₁' m₂) (h₂ : Enters m₂ m₂') {f g : Frame} (hf : m₁'.frames.head? = some f)
    (hg : m₂'.frames.head? = some g) : f.stamp ≠ g.stamp := by
  intro hstamp
  obtain ⟨hid, hcount⟩ := Prod.mk.inj hstamp
  have hpast : m₁'.IsPast f.id f.count := (hformed.enters h₁).isPast (List.mem_of_head? hf)
  apply h₂.not_isPast hg
  rw [← hid, ← hcount]
  exact hpast.reaches hbetween

/-- A scope or an iteration that is open, and was not before, has been entered
meanwhile. -/
theorem exists_enters (h : Reaches m m') {f : Frame} (hf : f ∈ m'.frames) (hnew : f.stamp ∉ m.frames.map Frame.stamp) :
    ∃ m₁ m₁' g, Reaches m m₁ ∧ Enters m₁ m₁' ∧ Reaches m₁' m' ∧ m₁'.frames.head? = some g ∧ g.stamp = f.stamp := by
  induction h generalizing f with
  | refl => exact absurd (List.mem_map_of_mem hf) hnew
  | @tail n m' hreaches hstep ih =>
    by_cases hold : f.stamp ∈ n.frames.map Frame.stamp
    · obtain ⟨g, hg, hstamp⟩ := List.mem_map.mp hold
      obtain ⟨m₁, m₁', e, hbefore, henters, hafter, he, heq⟩ := ih hg (by rwa [hstamp])
      exact ⟨m₁, m₁', e, hbefore, henters, hafter.tail hstep, he, heq.trans hstamp⟩
    · -- only the scope that is entered is new
      have hkept (hsubset : f ∈ n.frames) : False := hold (List.mem_map_of_mem hsubset)
      cases hstep with
      | entered henters =>
        refine ⟨n, m', f, hreaches, henters, .refl, ?_, rfl⟩
        cases henters with
        | opened =>
          rcases List.mem_cons.mp hf with rfl | hf
          · rfl
          · exact (hkept hf).elim
        | iterated =>
          rcases List.mem_cons.mp hf with rfl | hf
          · rfl
          · exact (hkept (List.mem_cons_of_mem _ hf)).elim
      | closed => exact (hkept (List.mem_cons_of_mem _ hf)).elim
      | looked => exact (hkept hf).elim
      | changed => exact (hkept hf).elim
      | aside => exact (hkept hf).elim

/-! ### Scopes stay open -/

/-- Whether scopes of these stamps are open, one right inside the other. -/
def HasOpen (stamps : List (Nat × Nat)) (m : Moment) : Prop :=
  ∃ outer, outer <:+ m.frames ∧ outer.map Frame.stamp = stamps

/-- As long as nothing happens to the innermost of some open scopes they stay
open; once something does, its stamp is past for good. -/
theorem suffix_happens {f : Frame} {outer : List Frame} (hformed : m.IsFormed) (h : f :: outer <:+ m.frames)
    (hm : Happens m m') : f :: outer <:+ m'.frames ∨ m'.IsPast f.id (f.count + 1) := by
  cases hm with
  | entered henters =>
    cases henters with
    | opened kind spot hkind => exact Or.inl (h.trans (List.suffix_cons _ _))
    | @iterated g rest r l l' hkind hnext =>
      rcases List.suffix_cons_iff.mp h with heq | h
      · right
        obtain ⟨rfl, rfl⟩ := List.cons.inj heq
        refine ⟨hformed.opened f List.mem_cons_self, fun g hg heq => ?_⟩
        rcases List.mem_cons.mp hg with rfl | hg
        · exact Nat.le_refl _
        · have := (List.pairwise_cons.mp hformed.ordered).1 g hg
          omega
      · exact Or.inl (h.trans (List.suffix_cons _ _))
  | @closed g rest r =>
    rcases List.suffix_cons_iff.mp h with heq | h
    · right
      obtain ⟨rfl, rfl⟩ := List.cons.inj heq
      refine ⟨hformed.opened f List.mem_cons_self, fun g hg heq => ?_⟩
      have := (List.pairwise_cons.mp hformed.ordered).1 g hg
      omega
    · exact Or.inl h
  | looked => exact Or.inl h
  | changed => exact Or.inl h
  | aside => exact Or.inl h

theorem not_isPast_of_suffix {f : Frame} {outer : List Frame} (h : f :: outer <:+ m.frames) :
    ¬ m.IsPast f.id (f.count + 1) := by
  rintro ⟨-, hcount⟩
  have := hcount f (h.subset List.mem_cons_self) rfl
  omega

theorem HasOpen.happens {stamps : List (Nat × Nat)} (hformed : m.IsFormed)
    (h : m.HasOpen ((id, count) :: stamps)) (hm : Happens m m') :
    m'.HasOpen ((id, count) :: stamps) ∨ m'.IsPast id (count + 1) := by
  obtain ⟨outer, houter, hstamps⟩ := h
  obtain ⟨f, rest, rfl, hstamp, -⟩ := List.map_eq_cons_iff.mp hstamps
  obtain ⟨rfl, rfl⟩ := Prod.mk.inj hstamp
  exact (suffix_happens hformed houter hm).imp_left fun h => ⟨_, h, hstamps⟩

theorem HasOpen.not_isPast {stamps : List (Nat × Nat)} (h : m.HasOpen ((id, count) :: stamps)) :
    ¬ m.IsPast id (count + 1) := by
  obtain ⟨outer, houter, hstamps⟩ := h
  obtain ⟨f, rest, rfl, hstamp, -⟩ := List.map_eq_cons_iff.mp hstamps
  obtain ⟨rfl, rfl⟩ := Prod.mk.inj hstamp
  exact not_isPast_of_suffix houter

/-- Scopes that are open at two moments are open all the time between them. -/
theorem hasOpen_between {stamps : List (Nat × Nat)} {m₁ m₂ m₃ : Moment} (hformed : m₁.IsFormed)
    (h₁ : m₁.HasOpen stamps) (h₁₂ : Reaches m₁ m₂) (h₂₃ : Reaches m₂ m₃) (h₃ : m₃.HasOpen stamps) :
    m₂.HasOpen stamps := by
  rcases stamps with _ | ⟨⟨id, count⟩, stamps⟩
  · exact ⟨[], List.nil_suffix, rfl⟩
  have hmiddle : m₂.HasOpen ((id, count) :: stamps) ∨ m₂.IsPast id (count + 1) := by
    clear h₂₃
    induction h₁₂ with
    | refl => exact Or.inl h₁
    | tail hreaches hstep ih =>
      rcases ih with hopen | hpast
      · exact hopen.happens (hformed.reaches hreaches) hstep
      · exact Or.inr (hpast.happens hstep)
  rcases hmiddle with hopen | hpast
  · exact hopen
  · exact absurd (hpast.reaches h₂₃) h₃.not_isPast

/-! ### Where symbols come from -/

/-- A step that gives a full name its symbol. -/
def Defines (full : String) (m m' : Moment) : Prop :=
  Happens m m' ∧ m.run.symbols.contains full = false ∧ m'.run.symbols.contains full = true

theorem contains_of_get?_eq {t u : SymbolTable} {full : String} (h : t.get? full = u.get? full) :
    t.contains full = u.contains full := by
  rw [SymbolTable.contains_eq_isSome, SymbolTable.contains_eq_isSome, h]

theorem contains_change (t : SymbolTable) (name : String) (value : Value) (full : String) :
    (t.change name value).contains full = t.contains full := by
  rw [SymbolTable.contains_eq_isSome, SymbolTable.contains_eq_isSome, SymbolTable.get?_change]
  by_cases hname : name = full
  · rw [if_pos hname, hname, Option.isSome_map]
  · rw [if_neg hname]

theorem get?_bindVariable (t : SymbolTable) (frames : List Frame) (l : Loop) (full : String)
    (hfull : fullName l.name frames ≠ full) : (Walk.bindVariable t frames l).get? full = t.get? full := by
  unfold Walk.bindVariable
  dsimp only
  cases hadd : t.add? (fullName l.name frames) (.num l.current) false none with
  | none => rw [Option.getD_none, SymbolTable.get?_change, if_neg hfull]
  | some symbols => rw [Option.getD_some, (SymbolTable.get?_add? hadd full).2, if_neg hfull]

/-- A symbol that is new has a plain name in some of the open scopes. -/
theorem Changes.exists_fullName {frames : List Frame} {r : Run} {symbols : SymbolTable}
    (hformed : (⟨frames, r⟩ : Moment).IsFormed) (h : Changes frames r symbols) {full : String}
    (hbefore : r.symbols.contains full = false) (hafter : symbols.contains full = true) :
    ∃ name outer, IsPlain name ∧ outer <:+ frames ∧ full = fullName name outer := by
  have hnew : ¬ symbols.contains full = r.symbols.contains full := by simp [hbefore, hafter]
  cases h with
  | @defined name outer value isLabel p _ hname houter hadd =>
    refine ⟨name, outer, hname, houter, ?_⟩
    by_contra hne
    apply hnew
    apply contains_of_get?_eq
    rw [(SymbolTable.get?_add? hadd full).2, if_neg (Ne.symm hne)]
  | reassigned value => exact absurd (contains_change _ _ _ _) hnew
  | processor value => exact absurd (contains_change _ _ _ _) hnew
  | @bound f outer l hframes hkind =>
    have hf : f ∈ frames := by simp [hframes]
    refine ⟨l.name, frames, hformed.loops f hf l hkind, List.suffix_refl _, ?_⟩
    by_contra hne
    exact hnew (contains_of_get?_eq (get?_bindVariable _ _ _ _ (Ne.symm hne)))
  | @released f outer name parameter definition hframes hf =>
    rw [SymbolTable.contains_eq_isSome, SymbolTable.get?_erase] at hafter
    rw [SymbolTable.contains_eq_isSome] at hbefore
    by_cases hfull : fullName parameter frames = full
    · simp [hfull] at hafter
    · simp [hfull, hbefore] at hafter
  | @given f outer name parameter definition value hframes hf hm hparameter =>
    refine ⟨parameter, frames, hformed.macros name definition hm parameter hparameter,
      List.suffix_refl _, ?_⟩
    by_contra hne
    apply hnew
    apply contains_of_get?_eq
    rw [SymbolTable.get?_add, if_neg (Ne.symm hne)]

theorem Defines.exists_fullName {full : String} (hformed : m.IsFormed) (h : Defines full m m') :
    ∃ name outer, IsPlain name ∧ outer <:+ m'.frames ∧ full = fullName name outer := by
  obtain ⟨hstep, hbefore, hafter⟩ := h
  cases hstep with
  | entered henters =>
    cases henters with
    | opened => rw [hbefore] at hafter; cases hafter
    | iterated => rw [hbefore] at hafter; cases hafter
  | closed => rw [hbefore] at hafter; cases hafter
  | looked hfollows =>
    rw [← hfollows.symbols.contains_eq, hbefore] at hafter
    cases hafter
  | changed hchanges => exact hchanges.exists_fullName hformed hbefore hafter
  | aside haside =>
    rw [haside.symbols, hbefore] at hafter
    cases hafter

/-- A symbol was there at the start or has been defined on the way. -/
theorem exists_defines {m₀ : Moment} {full : String} (h : Reaches m₀ m)
    (hfull : m.run.symbols.contains full = true) :
    m₀.run.symbols.contains full = true ∨
      ∃ m₁ m₂, Reaches m₀ m₁ ∧ Defines full m₁ m₂ ∧ Reaches m₂ m := by
  induction h with
  | refl => exact Or.inl hfull
  | @tail middle m hreaches hstep ih =>
    cases hbefore : middle.run.symbols.contains full with
    | false => exact Or.inr ⟨middle, m, hreaches, ⟨hstep, hbefore, hfull⟩, .refl⟩
    | true =>
      rcases ih hbefore with hstart | ⟨m₁, m₂, h₁, hdefines, h₂⟩
      · exact Or.inl hstart
      · exact Or.inr ⟨m₁, m₂, h₁, hdefines, h₂.tail hstep⟩

/-- A name is found in the innermost scopes that define it. -/
theorem nearest_of_visibleName? {symbols : SymbolTable} {name full : String} {frames : List Frame}
    (h : visibleName? symbols name frames = some full) :
    ∃ outer, outer <:+ frames ∧ full = fullName name outer ∧ symbols.contains full = true ∧
      ∀ inner, inner <:+ frames → outer.length < inner.length →
        symbols.contains (fullName name inner) = false := by
  induction frames with
  | nil =>
    unfold visibleName? at h
    split_ifs at h with hcontains
    obtain rfl := Option.some.inj h
    refine ⟨[], List.suffix_refl _, by simp [fullName, suffix], hcontains, fun inner hinner hlt => ?_⟩
    have := hinner.length_le
    simp only [List.length_nil] at this hlt
    omega
  | cons f frames ih =>
    unfold visibleName? at h
    split_ifs at h with hcontains
    · obtain rfl := Option.some.inj h
      refine ⟨f :: frames, List.suffix_refl _, rfl, hcontains, fun inner hinner hlt => ?_⟩
      have := hinner.length_le
      omega
    · obtain ⟨outer, houter, hfull, hdefined, hinnermost⟩ := ih h
      refine ⟨outer, houter.trans (List.suffix_cons f frames), hfull, hdefined, fun inner hinner hlt => ?_⟩
      rcases List.suffix_cons_iff.mp hinner with rfl | hinner
      · simpa using hcontains
      · exact hinnermost inner hinner hlt

/-- What a pass finds under a name, when it began without names in scopes, is in
the innermost open scopes that define the name: a symbol from the start, or one
defined on the way while the same scopes were open that have been so ever
since. -/
theorem exists_definition {m₀ : Moment} (hformed : m₀.IsFormed)
    (hplain : ∀ full, m₀.run.symbols.contains full = true → IsPlain full) (h : Reaches m₀ m)
    {name full : String} (hname : IsPlain name)
    (hvisible : visibleName? m.run.symbols name m.frames = some full) :
    ∃ outer, outer <:+ m.frames ∧ full = fullName name outer ∧
      (∀ inner, inner <:+ m.frames → outer.length < inner.length →
        m.run.symbols.contains (fullName name inner) = false) ∧
      ((outer = [] ∧ m₀.run.symbols.contains name = true) ∨
        ∃ m₁ m₂, Reaches m₀ m₁ ∧ Defines full m₁ m₂ ∧ Reaches m₂ m ∧
          ∀ m₃, Reaches m₂ m₃ → Reaches m₃ m → m₃.HasOpen (outer.map Frame.stamp)) := by
  obtain ⟨outer, houter, rfl, hcontains, hinnermost⟩ := nearest_of_visibleName? hvisible
  refine ⟨outer, houter, rfl, hinnermost, ?_⟩
  rcases exists_defines h hcontains with hstart | ⟨m₁, m₂, h₁, hdefines, h₂⟩
  · left
    cases outer with
    | nil => exact ⟨rfl, by simpa [fullName, suffix] using hstart⟩
    | cons f outer => exact absurd (hplain _ hstart) (not_isPlain_fullName_cons name f outer)
  · right
    refine ⟨m₁, m₂, h₁, hdefines, h₂, fun m₃ h₂₃ h₃ => ?_⟩
    have hformed₁ := hformed.reaches h₁
    obtain ⟨name', outer', hname', houter', heq⟩ := hdefines.exists_fullName hformed₁
    obtain ⟨-, hstamps⟩ := (fullName_inj hname hname').mp heq
    have hopen₂ : m₂.HasOpen (outer.map Frame.stamp) := ⟨outer', houter', hstamps.symm⟩
    exact hasOpen_between (hformed₁.happens hdefines.1) hopen₂ h₂₃ h₃ ⟨outer, houter, rfl⟩

/-- What a pass has noted as found was to be seen at a moment of it. -/
theorem exists_sighting {m₀ : Moment} (h : Reaches m₀ m) {pass : Pass} {full : String} {value : Value}
    (hfound : .found pass full value ∈ m.run.history) :
    .found pass full value ∈ m₀.run.history ∨
      ∃ m₁ name, Reaches m₀ m₁ ∧ Reaches m₁ m ∧ IsPlain name ∧
        visibleName? m₁.run.symbols name m₁.frames = some full ∧
        m₁.run.symbols.value? full = some value := by
  induction h with
  | refl => exact Or.inl hfound
  | @tail middle m hreaches hstep ih =>
    by_cases hbefore : .found pass full value ∈ middle.run.history
    · refine (ih hbefore).imp_right ?_
      rintro ⟨m₁, name, h₁, h₂, hrest⟩
      exact ⟨m₁, name, h₁, h₂.tail hstep, hrest⟩
    · right
      cases hstep with
      | entered henters => cases henters <;> exact absurd hfound hbefore
      | closed => exact absurd hfound hbefore
      | @looked frames r r' hfollows =>
        obtain ⟨notes, hhistory, hnotes⟩ := hfollows.history
        rw [hhistory, List.mem_append] at hfound
        obtain ⟨name, full', value', heq, hname, hvisible, hvalue⟩ :=
          hnotes _ (hfound.resolve_right hbefore)
        cases heq
        exact ⟨_, name, hreaches, .single (.looked hfollows), hname, hvisible, hvalue⟩
      | changed => exact absurd hfound hbefore
      | aside haside =>
        obtain ⟨notes, hhistory, hnotes⟩ := haside.history
        rw [hhistory, List.mem_append] at hfound
        exact absurd rfl (hnotes _ (hfound.resolve_right hbefore) pass full value)

end Moment
end Asm6502
