/-
# What changes in a symbol table

A change of the table concerns one name. What it makes of the entry of that
name, and that every other entry stays, is said here once for each kind of
change. Two tables are alike if they differ at most in the places where
symbols are used, which no lookup tells apart.

Key definitions: `Symbol.bare`, `SymbolTable.Alike`.
Key theorems: `SymbolTable.get?_add?`, `SymbolTable.get?_change`,
`SymbolTable.get?_erase`, `SymbolTable.alike_addReference`,
`SymbolTable.Alike.visibleName?_eq`.
-/
import Mathlib.Tactic.SplitIfs
import Asm6502.Scope

namespace Asm6502

/-- A symbol without the places where it is used. -/
def Symbol.bare (s : Symbol) : Symbol := { s with references := [] }

namespace SymbolTable

theorem contains_eq_isSome (t : SymbolTable) (name : String) :
    t.contains name = (t.get? name).isSome := by
  simp [contains, get?]

theorem get?_insert (entries : Std.TreeMap String (Nat × Symbol)) (rank nextRank : Nat)
    (name other : String) (symbol : Symbol) :
    (⟨entries.insert name (rank, symbol), nextRank⟩ : SymbolTable).get? other =
      if name = other then some symbol else (⟨entries, nextRank⟩ : SymbolTable).get? other := by
  simp only [get?, Std.TreeMap.getElem?_insert, Std.compare_eq_iff_eq]
  split_ifs <;> rfl

theorem get?_update (t : SymbolTable) (name : String) (f : Symbol → Symbol) (other : String) :
    (t.update name f).get? other =
      if name = other then (t.get? name).map f else t.get? other := by
  unfold update
  cases h : t.entries[name]? with
  | none =>
    split_ifs with heq
    · subst heq
      simp [get?, h]
    · rfl
  | some entry =>
    rw [get?_insert]
    split_ifs
    · simp [get?, h]
    · rfl

theorem get?_change (t : SymbolTable) (name : String) (value : Value) (other : String) :
    (t.change name value).get? other =
      if name = other then (t.get? name).map fun symbol => { symbol with value } else t.get? other :=
  get?_update t name _ other

theorem get?_erase (t : SymbolTable) (name other : String) :
    (t.erase name).get? other = if name = other then none else t.get? other := by
  simp only [get?, erase, Std.TreeMap.getElem?_erase, Std.compare_eq_iff_eq]
  split_ifs <;> rfl

theorem add?_eq_none_iff {t : SymbolTable} {name : String} {value : Value} {isLabel : Bool}
    {definedAt : Option Position} :
    t.add? name value isLabel definedAt = none ↔ (t.get? name).isSome := by
  simp [add?, contains_eq_isSome, Option.isSome_iff_ne_none]

theorem get?_add? {t u : SymbolTable} {name : String} {value : Value} {isLabel : Bool}
    {definedAt : Option Position} (h : t.add? name value isLabel definedAt = some u)
    (other : String) :
    t.get? name = none ∧
      u.get? other =
        if name = other then some ⟨value, isLabel, definedAt, []⟩ else t.get? other := by
  unfold add? at h
  split_ifs at h with hc
  obtain rfl := Option.some.inj h
  rw [contains_eq_isSome, Option.not_isSome_iff_eq_none] at hc
  exact ⟨hc, get?_insert _ _ _ _ _ _⟩

theorem get?_add (t : SymbolTable) (name : String) (value : Value) (isLabel : Bool)
    (definedAt : Option Position) (other : String) :
    (t.add name value isLabel definedAt).get? other =
      if name = other then some ((t.get? name).getD ⟨value, isLabel, definedAt, []⟩)
      else t.get? other := by
  unfold add
  cases h : t.add? name value isLabel definedAt with
  | none =>
    obtain ⟨symbol, hs⟩ := Option.isSome_iff_exists.mp (add?_eq_none_iff.mp h)
    split_ifs with heq
    · subst heq
      simp [hs]
    · rfl
  | some u =>
    obtain ⟨hnone, hu⟩ := get?_add? h other
    rw [Option.getD_some, hu, hnone, Option.getD_none]

/-! ### Tables without labels -/

/-- Whether no symbol is a label. -/
def HasNoLabel (t : SymbolTable) : Prop :=
  ∀ name symbol, t.get? name = some symbol → symbol.isLabel = false

theorem HasNoLabel.add {t : SymbolTable} (h : t.HasNoLabel) (name : String) (value : Value)
    (definedAt : Option Position) : (t.add name value false definedAt).HasNoLabel := by
  intro other symbol hsymbol
  rw [get?_add] at hsymbol
  split_ifs at hsymbol
  · cases hbefore : t.get? name with
    | none =>
      rw [hbefore] at hsymbol
      cases hsymbol
      rfl
    | some before =>
      rw [hbefore] at hsymbol
      cases hsymbol
      exact h name _ hbefore
  · exact h other symbol hsymbol

theorem hasNoLabel_predefined : predefined.HasNoLabel :=
  HasNoLabel.add (.add (.add (.add (.add (fun _ _ h => by cases h) _ _ _) _ _ _) _ _ _) _ _ _) _ _ _

theorem isSome_get?_add {t : SymbolTable} {other : String} (h : (t.get? other).isSome = true)
    (name : String) (value : Value) (isLabel : Bool) (definedAt : Option Position) :
    ((t.add name value isLabel definedAt).get? other).isSome = true := by
  rw [get?_add]
  split_ifs
  · rfl
  · exact h

/-! ### Tables that no lookup tells apart -/

/-- Two tables differ at most in the places where symbols are used. -/
def Alike (t u : SymbolTable) : Prop :=
  ∀ name, (t.get? name).map Symbol.bare = (u.get? name).map Symbol.bare

theorem Alike.refl (t : SymbolTable) : Alike t t := fun _ => rfl

theorem Alike.symm {t u : SymbolTable} (h : Alike t u) : Alike u t := fun name => (h name).symm

theorem Alike.trans {t u v : SymbolTable} (h : Alike t u) (h' : Alike u v) : Alike t v :=
  fun name => (h name).trans (h' name)

theorem alike_addReference (t : SymbolTable) (name : String) (place : Position) :
    Alike t (t.addReference name place) := by
  intro other
  rw [addReference, get?_update]
  split_ifs with h
  · subst h
    cases t.get? name with
    | none => rfl
    | some symbol =>
      simp only [Option.map_some, Option.some.injEq]
      split_ifs <;> rfl
  · rfl

theorem Alike.exists_get? {t u : SymbolTable} (h : Alike t u) {name : String} {symbol : Symbol}
    (hsymbol : u.get? name = some symbol) :
    ∃ other, t.get? name = some other ∧ other.value = symbol.value ∧ other.isLabel = symbol.isLabel ∧
      other.definedAt = symbol.definedAt := by
  have hname := h name
  rw [hsymbol] at hname
  obtain ⟨other, hother, hbare⟩ := Option.map_eq_some_iff.mp hname
  obtain ⟨hvalue, hlabel, hplace, -⟩ := Symbol.mk.inj hbare
  exact ⟨other, hother, hvalue, hlabel, hplace⟩

theorem value?_of_bare {t u : SymbolTable} {name : String}
    (h : (t.get? name).map Symbol.bare = (u.get? name).map Symbol.bare) : t.value? name = u.value? name := by
  have hv (o : Option Symbol) : (o.map Symbol.bare).map Symbol.value = o.map Symbol.value := by
    cases o <;> rfl
  rw [value?, value?, ← hv, h, hv]

theorem contains_of_bare {t u : SymbolTable} {name : String}
    (h : (t.get? name).map Symbol.bare = (u.get? name).map Symbol.bare) : t.contains name = u.contains name := by
  rw [contains_eq_isSome, contains_eq_isSome, ← Option.isSome_map, h, Option.isSome_map]

theorem Alike.value?_eq {t u : SymbolTable} (h : Alike t u) (name : String) :
    t.value? name = u.value? name := value?_of_bare (h name)

theorem Alike.contains_eq {t u : SymbolTable} (h : Alike t u) (name : String) :
    t.contains name = u.contains name := contains_of_bare (h name)

theorem Alike.visibleName?_eq {t u : SymbolTable} (h : Alike t u) (name : String) :
    ∀ frames, visibleName? t name frames = visibleName? u name frames
  | [] => by rw [visibleName?, visibleName?, h.contains_eq]
  | f :: frames => by rw [visibleName?, visibleName?, h.contains_eq, h.visibleName?_eq name frames]

end SymbolTable
end Asm6502
