import CrustyOs.Lib.Bits
import Mathlib.Logic.Function.Basic

/-! Two-level bitmaps: a row of bits for each class row, and a top word that marks
the non-empty rows. The first marked place at or after a given one is found with
two bit counts. -/
namespace CrustyOs.Lib

structure Marks (top : Nat) (rows : Nat → Nat) (P : Nat × Nat → Prop) : Prop where
  row : ∀ i j, (rows i).testBit j = true ↔ P (i, j)
  top : ∀ i, top.testBit i = true ↔ rows i ≠ 0

namespace Marks

variable {top i j : Nat} {rows : Nat → Nat} {P Q : Nat × Nat → Prop}

theorem congr (h : Marks top rows P) (same : ∀ c, P c ↔ Q c) : Marks top rows Q :=
  ⟨fun i j => (h.row i j).trans (same (i, j)), h.top⟩

theorem empty : Marks 0 (fun _ => 0) fun _ => False := ⟨by simp, by simp⟩

theorem unique {top' : Nat} {rows' : Nat → Nat} (h : Marks top rows P) (h' : Marks top' rows' P) :
    top = top' ∧ rows = rows' := by
  have same : rows = rows' := by
    funext i
    apply Nat.eq_of_testBit_eq
    intro j
    rw [Bool.eq_iff_iff, h.row i j, h'.row i j]
  refine ⟨?_, same⟩
  apply Nat.eq_of_testBit_eq
  intro i
  rw [Bool.eq_iff_iff, h.top i, h'.top i, same]

theorem set (h : Marks top rows P) (i j : Nat) :
    Marks (top ||| 2 ^ i) (Function.update rows i (rows i ||| 2 ^ j))
      fun c => c = (i, j) ∨ P c := by
  have marked : rows i ||| 2 ^ j ≠ 0 := by
    intro zero
    have bit : (rows i ||| 2 ^ j).testBit j = true := by
      simp [Nat.testBit_or, Nat.testBit_two_pow_self]
    simp [zero] at bit
  refine ⟨fun k l => ?_, fun k => ?_⟩
  · by_cases e : k = i
    · subst e
      rw [Function.update_self, Nat.testBit_or, Nat.testBit_two_pow, Bool.or_eq_true,
        decide_eq_true_eq, h.row k l, Prod.mk.injEq]
      constructor
      · rintro (old | rfl)
        · exact Or.inr old
        · exact Or.inl ⟨rfl, rfl⟩
      · rintro (⟨_, rfl⟩ | old)
        · exact Or.inr rfl
        · exact Or.inl old
    · rw [Function.update_of_ne e, h.row k l, Prod.mk.injEq]
      simp [e]
  · rw [Nat.testBit_or, Nat.testBit_two_pow, Bool.or_eq_true, decide_eq_true_eq, h.top k]
    by_cases e : k = i
    · subst e
      simp [marked]
    · rw [Function.update_of_ne e]
      simp [Ne.symm e]

/-- Clear one place; the top bit goes with the row's last one. -/
theorem clear {w : Nat} (h : Marks top rows P) (small : ∀ c, P c → c.1 < w ∧ c.2 < w) (i j : Nat) :
    Marks (if rows i &&& wordNot w (2 ^ j) = 0 then top &&& wordNot w (2 ^ i) else top)
      (Function.update rows i (rows i &&& wordNot w (2 ^ j))) fun c => c ≠ (i, j) ∧ P c := by
  have row : ∀ l, (rows i &&& wordNot w (2 ^ j)).testBit l = true ↔ l ≠ j ∧ P (i, l) := by
    intro l
    rw [Nat.testBit_and, testBit_wordNot, Nat.testBit_two_pow, Bool.and_eq_true, h.row i l]
    constructor
    · rintro ⟨old, bit⟩
      refine ⟨?_, old⟩
      rintro rfl
      simp [(small _ old).2] at bit
    · rintro ⟨ne, old⟩
      have within : l < w := (small _ old).2
      simp [Ne.symm ne, within, old]
  refine ⟨fun k l => ?_, fun k => ?_⟩
  · by_cases e : k = i
    · subst e
      rw [Function.update_self, row l]
      simp
    · rw [Function.update_of_ne e, h.row k l]
      simp [e]
  · by_cases e : k = i
    · subst e
      rw [Function.update_self]
      split
      · rename_i zero
        rw [Nat.testBit_and, testBit_wordNot, Nat.testBit_two_pow]
        simp only [zero, ne_eq, not_true_eq_false, iff_false, Bool.not_eq_true]
        by_cases old : top.testBit k = true
        · obtain ⟨l, bit⟩ := Nat.exists_testBit_of_ne_zero ((h.top k).mp old)
          simp [(small _ ((h.row k l).mp bit)).1]
        · simp [Bool.not_eq_true _ ▸ old]
      · rename_i nonzero
        have old : rows k ≠ 0 := fun zero => nonzero (by simp [zero])
        simp [nonzero, (h.top k).mpr old]
    · rw [Function.update_of_ne e]
      split
      · rw [Nat.testBit_and, testBit_wordNot, Nat.testBit_two_pow, Bool.and_eq_true, h.top k]
        constructor
        · exact fun both => both.1
        · intro nonzero
          obtain ⟨l, bit⟩ := Nat.exists_testBit_of_ne_zero nonzero
          have within := (small _ ((h.row k l).mp bit)).1
          simp [nonzero, Ne.symm e, within]
      · exact h.top k

theorem find_row {w : Nat} (h : Marks top rows P) (small : rows i < 2 ^ w)
    (some : rows i >>> j ≠ 0) :
    P (i, j + trailingZeros w (rows i >>> j)) ∧
      ∀ l, j ≤ l → l < j + trailingZeros w (rows i >>> j) → ¬ P (i, l) := by
  have narrow : rows i >>> j < 2 ^ w :=
    Nat.lt_of_le_of_lt (Nat.shiftRight_le _ _) small
  obtain ⟨bit, below⟩ := testBit_trailingZeros some narrow
  refine ⟨(h.row _ _).mp (by rwa [Nat.testBit_shiftRight] at bit), fun l ge lt old => ?_⟩
  have clear := below (l - j) (by omega)
  rw [Nat.testBit_shiftRight, Nat.add_sub_cancel' ge, (h.row i l).mpr old] at clear
  cases clear

theorem none_in_row (h : Marks top rows P) (none : rows i >>> j = 0) :
    ∀ l, j ≤ l → ¬ P (i, l) := by
  intro l ge old
  have bit : (rows i >>> j).testBit (l - j) = true := by
    rw [Nat.testBit_shiftRight, Nat.add_sub_cancel' ge]
    exact (h.row i l).mpr old
  simp [none] at bit

theorem find_top {w : Nat} (h : Marks top rows P) (small : top < 2 ^ w)
    (some : top >>> i ≠ 0) :
    rows (i + trailingZeros w (top >>> i)) ≠ 0 ∧
      ∀ k, i ≤ k → k < i + trailingZeros w (top >>> i) → ∀ l, ¬ P (k, l) := by
  have narrow : top >>> i < 2 ^ w := Nat.lt_of_le_of_lt (Nat.shiftRight_le _ _) small
  obtain ⟨bit, below⟩ := testBit_trailingZeros some narrow
  refine ⟨(h.top _).mp (by rwa [Nat.testBit_shiftRight] at bit), fun k ge lt l old => ?_⟩
  have clear := below (k - i) (by omega)
  have row : rows k ≠ 0 := by
    intro zero
    have marked := (h.row k l).mpr old
    simp [zero] at marked
  rw [Nat.testBit_shiftRight, Nat.add_sub_cancel' ge, (h.top k).mpr row] at clear
  cases clear

theorem none_in_top (h : Marks top rows P) (none : top >>> i = 0) :
    ∀ k, i ≤ k → ∀ l, ¬ P (k, l) := by
  intro k ge l old
  have row : rows k ≠ 0 := by
    intro zero
    have marked := (h.row k l).mpr old
    simp [zero] at marked
  have bit : (top >>> i).testBit (k - i) = true := by
    rw [Nat.testBit_shiftRight, Nat.add_sub_cancel' ge]
    exact (h.top k).mpr row
  simp [none] at bit

theorem narrow {w : Nat} (h : Marks top rows P) (small : ∀ c, P c → c.1 < w ∧ c.2 < w) :
    top < 2 ^ w ∧ ∀ i, rows i < 2 ^ w := by
  have rows_narrow : ∀ i, rows i < 2 ^ w := by
    intro i
    apply Nat.lt_pow_two_of_testBit
    intro j ge
    by_contra bit
    have marked := (h.row i j).mp (by simpa using bit)
    exact absurd (small _ marked).2 (Nat.not_lt_of_le ge)
  refine ⟨?_, rows_narrow⟩
  apply Nat.lt_pow_two_of_testBit
  intro i ge
  by_contra bit
  have row := (h.top i).mp (by simpa using bit)
  obtain ⟨j, marked⟩ := Nat.exists_testBit_of_ne_zero row
  exact absurd (small _ ((h.row i j).mp marked)).1 (Nat.not_lt_of_le ge)

end Marks
end CrustyOs.Lib
