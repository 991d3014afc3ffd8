/-
# Blocks as functions of an index

A block of `2 ^ d` cells is the function `Block.get` on the indices below
`2 ^ d`. What each operation does to that function is said here once, so that
no proof about memory looks at the halves of a block again.

Key theorems: `Block.get_set`, `Block.get_map`, `Block.get_mapRange`,
`Block.get_setAll`, `Block.mem_slice`.
-/
import Mathlib.Algebra.Ring.Nat
import Mathlib.Tactic.SplitIfs
import Asm6502.Memory.Block

namespace Asm6502
namespace Block

variable {α : Type}

theorem get_split_low {d : Nat} (b : Block α (d + 1)) {i : Nat} (h : i < 2 ^ d) :
    b.split.1.get i = b.get i := by
  cases b with
  | uniform a => simp [split, get]
  | halves low high => simp [split, get, h]

theorem get_split_high {d : Nat} (b : Block α (d + 1)) {i : Nat} (h : 2 ^ d ≤ i) :
    b.split.2.get (i - 2 ^ d) = b.get i := by
  cases b with
  | uniform a => simp [split, get]
  | halves low high => simp [split, get, Nat.not_lt.mpr h]

theorem get_halves_low {d : Nat} (low high : Block α d) {i : Nat} (h : i < 2 ^ d) :
    (halves low high).get i = low.get i := by
  simp [get, h]

theorem get_halves_high {d : Nat} (low high : Block α d) {i : Nat} (h : 2 ^ d ≤ i) :
    (halves low high).get i = high.get (i - 2 ^ d) := by
  simp [get, Nat.not_lt.mpr h]

theorem get_set : ∀ {d : Nat} (b : Block α d) {i j : Nat} (a : α), i < 2 ^ d → j < 2 ^ d →
    (b.set i a).get j = if j = i then a else b.get j
  | 0, b, i, j, a, hi, hj => by
    have hij : j = i := by omega
    simp [set, get, hij]
  | d + 1, b, i, j, a, hi, hj => by
    have hpow : 2 ^ (d + 1) = 2 * 2 ^ d := Nat.pow_succ'
    rw [set]
    simp only [Nat.pow_eq]
    split_ifs with hlow hji hji
    · rw [get_halves_low _ _ (by omega), get_set _ a hlow (by omega), if_pos hji]
    · by_cases hj' : j < 2 ^ d
      · rw [get_halves_low _ _ hj', get_set _ a hlow hj', if_neg hji, get_split_low b hj']
      · rw [get_halves_high _ _ (by omega), get_split_high b (by omega)]
    · rw [get_halves_high _ _ (by omega), get_set _ a (by omega) (by omega), if_pos (by omega)]
    · by_cases hj' : j < 2 ^ d
      · rw [get_halves_low _ _ hj', get_split_low b hj']
      · rw [get_halves_high _ _ (by omega), get_set _ a (by omega) (by omega), if_neg (by omega),
          get_split_high b (by omega)]

theorem get_map (f : α → α) : ∀ {d : Nat} (b : Block α d) (i : Nat), (b.map f).get i = f (b.get i)
  | _, uniform a, i => by simp [map, get]
  | _, halves low high, i => by
    simp only [map, get, get_map f low, get_map f high]
    split_ifs <;> rfl

theorem get_mapRange (f : α → α) : ∀ {d : Nat} (b : Block α d) (start stop : Nat) {i : Nat}, i < 2 ^ d →
    (b.mapRange f start stop).get i = if start ≤ i ∧ i < stop then f (b.get i) else b.get i
  | 0, b, start, stop, i, hi => by
    rw [mapRange]
    simp only [Nat.pow_eq, Bool.or_eq_true, decide_eq_true_eq, Bool.and_eq_true]
    split_ifs with h0 hin hall hin hin
    · omega
    · rfl
    · exact get_map f b i
    · omega
    all_goals omega
  | d + 1, b, start, stop, i, hi => by
    have hpow : 2 ^ (d + 1) = 2 * 2 ^ d := Nat.pow_succ'
    rw [mapRange]
    simp only [Nat.pow_eq, Bool.or_eq_true, decide_eq_true_eq, Bool.and_eq_true]
    split_ifs with h0 hin hall hin hin
    · omega
    · rfl
    · exact get_map f b i
    · omega
    all_goals
      by_cases hlow : i < 2 ^ d
      · rw [get_halves_low _ _ hlow, get_mapRange f _ _ _ hlow, get_split_low b hlow]
        simp [hin]
      · have hshift : (start - 2 ^ d ≤ i - 2 ^ d ∧ i - 2 ^ d < stop - 2 ^ d) ↔ start ≤ i ∧ i < stop := by
          omega
        rw [get_halves_high _ _ (by omega), get_mapRange f _ _ _ (by omega),
          get_split_high b (by omega), if_congr hshift rfl rfl]
        simp [hin]

theorem mem_slice {d : Nat} {b : Block α d} {start stop : Nat} {a : α} :
    a ∈ b.slice start stop ↔ ∃ i, start ≤ i ∧ i < stop ∧ b.get i = a := by
  simp only [slice, List.mem_map, List.mem_range'_1]
  constructor
  · rintro ⟨i, ⟨h1, h2⟩, h⟩
    exact ⟨i, h1, by omega, h⟩
  · rintro ⟨i, h1, h2, h⟩
    exact ⟨i, ⟨h1, by omega⟩, h⟩

theorem getElem?_slice {d : Nat} (b : Block α d) (start stop : Nat) {i : Nat} (hi : i < stop - start) :
    (b.slice start stop)[i]? = some (b.get (start + i)) := by
  simp [slice, hi]

theorem get_setAll : ∀ {d : Nat} (as : List α) (b : Block α d) {i j : Nat}, i + as.length ≤ 2 ^ d → j < 2 ^ d →
    (b.setAll i as).get j = if i ≤ j then (as[j - i]?).getD (b.get j) else b.get j
  | _, [], b, i, j, _, _ => by simp [setAll]
  | d, a :: as, b, i, j, hfit, hj => by
    rw [List.length_cons] at hfit
    rw [setAll, get_setAll as (b.set i a) (by omega) hj, get_set b a (by omega) hj]
    rcases Nat.lt_trichotomy i j with hij | rfl | hij
    · obtain ⟨k, rfl⟩ : ∃ k, j = i + 1 + k := ⟨j - (i + 1), by omega⟩
      have hk : i + 1 + k - i = k + 1 := by omega
      rw [if_pos (by omega), if_neg (by omega), if_pos (by omega), hk, List.getElem?_cons_succ, Nat.add_sub_cancel_left]
    · rw [if_neg (by omega), if_pos rfl, if_pos (Nat.le_refl i), Nat.sub_self]
      rfl
    · rw [if_neg (by omega), if_neg (by omega), if_neg (by omega)]

end Block
end Asm6502
